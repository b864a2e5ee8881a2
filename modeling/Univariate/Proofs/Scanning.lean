import Univariate.Text.Token

/-! # Scanning

What the scanner makes of a text from its first character on.  The tokens of a text begin nowhere
before it, so a run of digits is one literal as soon as no digit stands behind it. -/

namespace Univariate

def Lexeme.IsNumeral (digits : List Char) : Prop := digits ≠ [] ∧ ∀ c ∈ digits, c.isDigit = true

namespace Token

variable {c : Char} {cs ds digits tail : List Char} {start offset : Nat} {token : Token}
  {tokens : List Token}

theorem utf8Size_of_isDigit (h : c.isDigit = true) : c.utf8Size = 1 := by
  have h9 : c.val.toNat ≤ 57 := (Char.isDigit_iff_toNat.1 h).2
  have h127 : (127 : UInt32).toNat = 127 := rfl
  rw [Char.utf8Size_eq_one_iff, UInt32.le_iff_toNat_le]
  omega

theorem isBlank_of_isDigit (h : c.isDigit = true) : isBlank c = false := by
  rw [Bool.eq_false_iff]
  intro hblank
  rw [not_isDigit_of_isBlank hblank] at h
  cases h

theorem utf8ByteSize_ofList_cons (c : Char) (cs : List Char) :
    (String.ofList (c :: cs)).utf8ByteSize = c.utf8Size + (String.ofList cs).utf8ByteSize := by
  rw [String.ofList_cons, String.utf8ByteSize_append, String.utf8ByteSize_singleton]

theorem scanFrom_blank (h : isBlank c = true) :
    scanFrom offset (c :: cs) = scanFrom (offset + c.utf8Size) cs := by
  simp only [scanFrom, h, if_true]

theorem scanFrom_digit (h : c.isDigit = true) :
    scanFrom offset (c :: cs) = consDigit c offset (scanFrom (offset + 1) cs) := by
  simp only [scanFrom, isBlank_of_isDigit h, h, if_true, utf8Size_of_isDigit h, Bool.false_eq_true,
    if_false]

theorem scanFrom_symbol (hblank : isBlank c = false) (hdigit : c.isDigit = false) :
    scanFrom offset (c :: cs) = ⟨.ofChar c, offset⟩ :: scanFrom (offset + c.utf8Size) cs := by
  simp only [scanFrom, hblank, hdigit, Bool.false_eq_true, if_false]

private theorem mem_consDigit (h : token ∈ consDigit c offset tokens) : token ∈ tokens ∨
    ∃ digits, token = ⟨.literal (c :: digits), offset⟩ ∧
      (digits = [] ∨ ⟨.literal digits, offset + 1⟩ ∈ tokens) := by
  rw [consDigit.eq_def] at h
  split at h
  · split at h
    · rename_i digits next rest hnext
      subst hnext
      rcases List.mem_cons.1 h with rfl | h
      · exact .inr ⟨digits, rfl, .inr List.mem_cons_self⟩
      · exact .inl (List.mem_cons_of_mem _ h)
    · rcases List.mem_cons.1 h with rfl | h
      · exact .inr ⟨[], rfl, .inl rfl⟩
      · exact .inl h
  · rcases List.mem_cons.1 h with rfl | h
    · exact .inr ⟨[], rfl, .inl rfl⟩
    · exact .inl h

/-- A token begins behind the first character, or that character is a symbol or the first digit of
a literal. -/
theorem mem_scanFrom_cons (h : token ∈ scanFrom offset (c :: cs)) :
    token ∈ scanFrom (offset + c.utf8Size) cs ∨ token = ⟨.ofChar c, offset⟩ ∨
      c.isDigit = true ∧ ∃ digits, token = ⟨.literal (c :: digits), offset⟩ ∧
        (digits = [] ∨ ⟨.literal digits, offset + c.utf8Size⟩ ∈
          scanFrom (offset + c.utf8Size) cs) := by
  by_cases hblank : isBlank c = true
  · rw [scanFrom_blank hblank] at h
    exact .inl h
  · by_cases hdigit : c.isDigit = true
    · rw [scanFrom_digit hdigit] at h
      rw [utf8Size_of_isDigit hdigit]
      rcases mem_consDigit h with h | hliteral
      · exact .inl h
      · exact .inr (.inr ⟨hdigit, hliteral⟩)
    · rw [Bool.not_eq_true] at hblank hdigit
      rw [scanFrom_symbol hblank hdigit] at h
      rcases List.mem_cons.1 h with rfl | h
      · exact .inr (.inl rfl)
      · exact .inl h

theorem offset_le_of_mem_scanFrom (h : token ∈ scanFrom offset cs) : offset ≤ token.offset := by
  induction cs generalizing offset with
  | nil => cases h
  | cons c cs ih =>
    rcases mem_scanFrom_cons h with h | rfl | ⟨-, digits, rfl, -⟩
    · have := ih h
      omega
    · exact Nat.le_refl _
    · exact Nat.le_refl _

theorem offset_lt_of_mem_scanFrom (h : token ∈ scanFrom offset cs) :
    token.offset < offset + (String.ofList cs).utf8ByteSize := by
  induction cs generalizing offset with
  | nil => cases h
  | cons c cs ih =>
    have hpos : 0 < c.utf8Size := c.utf8Size_pos
    rw [utf8ByteSize_ofList_cons]
    rcases mem_scanFrom_cons h with h | rfl | ⟨-, digits, rfl, -⟩
    · have := ih h
      omega
    · exact Nat.lt_add_of_pos_right (by omega)
    · exact Nat.lt_add_of_pos_right (by omega)

private theorem pairwise_consDigit (h : tokens.Pairwise fun s t => s.offset < t.offset)
    (hoffset : ∀ t ∈ tokens, offset < t.offset) :
    (consDigit c offset tokens).Pairwise fun s t => s.offset < t.offset := by
  rw [consDigit.eq_def]
  split
  · split
    · rw [List.pairwise_cons] at h ⊢
      exact ⟨fun t ht => hoffset t (List.mem_cons_of_mem _ ht), h.2⟩
    · exact List.pairwise_cons.2 ⟨hoffset, h⟩
  · exact List.pairwise_cons.2 ⟨hoffset, h⟩

theorem pairwise_scanFrom (offset : Nat) (cs : List Char) :
    (scanFrom offset cs).Pairwise fun s t => s.offset < t.offset := by
  induction cs generalizing offset with
  | nil => exact .nil
  | cons c cs ih =>
    have hbehind : ∀ t ∈ scanFrom (offset + c.utf8Size) cs, offset < t.offset := fun t ht =>
      Nat.lt_of_lt_of_le (Nat.lt_add_of_pos_right c.utf8Size_pos) (offset_le_of_mem_scanFrom ht)
    by_cases hblank : isBlank c = true
    · rw [scanFrom_blank hblank]
      exact ih _
    · by_cases hdigit : c.isDigit = true
      · rw [utf8Size_of_isDigit hdigit] at hbehind
        rw [scanFrom_digit hdigit]
        exact pairwise_consDigit (ih _) hbehind
      · rw [Bool.not_eq_true] at hblank hdigit
        rw [scanFrom_symbol hblank hdigit]
        exact List.pairwise_cons.2 ⟨hbehind, ih _⟩

/-- The characters of a token stand in the text, at the offset of the token in bytes. -/
def StandsIn (text : String) (token : Token) : Prop :=
  ∃ before behind : String, text = before ++ String.ofList token.lexeme.text ++ behind ∧
    token.offset = before.utf8ByteSize

private theorem text_of_mem_scanFrom (h : token ∈ scanFrom offset cs) : ∃ before behind,
    cs = before ++ token.lexeme.text ++ behind ∧
      token.offset = offset + (String.ofList before).utf8ByteSize := by
  induction cs generalizing offset token with
  | nil => cases h
  | cons c cs ih =>
    rcases mem_scanFrom_cons h with h | rfl | ⟨-, digits, rfl, rfl | h⟩
    · obtain ⟨before, behind, rfl, hoffset⟩ := ih h
      refine ⟨c :: before, behind, rfl, ?_⟩
      rw [hoffset, utf8ByteSize_ofList_cons, Nat.add_assoc]
    · exact ⟨[], cs, by rw [Lexeme.text_ofChar]; rfl, rfl⟩
    · exact ⟨[], cs, rfl, rfl⟩
    · -- The other digits begin right behind the first, so nothing stands between.
      obtain ⟨before, behind, rfl, hoffset⟩ := ih h
      cases before with
      | nil => exact ⟨[], behind, rfl, rfl⟩
      | cons d before =>
        have hpos : 0 < d.utf8Size := d.utf8Size_pos
        rw [utf8ByteSize_ofList_cons] at hoffset
        dsimp only at hoffset
        omega

theorem standsIn_of_mem_scan {text : String} (h : token ∈ scan text) : token.StandsIn text := by
  obtain ⟨before, behind, htext, hoffset⟩ := text_of_mem_scanFrom h
  refine ⟨String.ofList before, String.ofList behind, ?_, by rw [hoffset, Nat.zero_add]⟩
  rw [← String.ofList_append, ← String.ofList_append, ← htext, String.ofList_toList]

def DigitFree (cs : List Char) : Prop := ∀ c ∈ cs.head?, c.isDigit = false

private theorem consDigit_separate {l : Lexeme} {next : Nat}
    (h : ∀ digits, l = .literal digits → next ≠ offset + 1) :
    consDigit c offset (⟨l, next⟩ :: tokens) = ⟨.literal [c], offset⟩ :: ⟨l, next⟩ :: tokens := by
  cases l with
  | literal digits => rw [consDigit, if_neg (h digits rfl)]
  | _ => rfl

theorem ofChar_ne_literal : Lexeme.ofChar c ≠ .literal digits := by
  rw [Lexeme.ofChar]
  repeat' split
  all_goals simp

theorem isNumeral_of_mem_scanFrom (h : ⟨.literal digits, offset⟩ ∈ scanFrom start cs) :
    Lexeme.IsNumeral digits := by
  induction cs generalizing start offset digits with
  | nil => cases h
  | cons c cs ih =>
    rcases mem_scanFrom_cons h with h | heq | ⟨hdigit, others, heq, hothers⟩
    · exact ih h
    · exact absurd (congrArg lexeme heq).symm ofChar_ne_literal
    · cases heq
      refine ⟨List.cons_ne_nil c others, List.forall_mem_cons.2 ⟨hdigit, ?_⟩⟩
      rcases hothers with rfl | h
      · exact fun d hd => absurd hd List.not_mem_nil
      · exact (ih h).2

private theorem consDigit_of_digitFree (h : DigitFree tail) :
    consDigit c offset (scanFrom (offset + 1) tail) =
      ⟨.literal [c], offset⟩ :: scanFrom (offset + 1) tail := by
  cases tail with
  | nil => rfl
  | cons d tail =>
    by_cases hblank : isBlank d = true
    · rw [scanFrom_blank hblank]
      cases hscan : scanFrom (offset + 1 + d.utf8Size) tail with
      | nil => rfl
      | cons token tokens =>
        have hoffset : offset + 1 + d.utf8Size ≤ token.offset :=
          offset_le_of_mem_scanFrom (hscan ▸ List.mem_cons_self)
        have hpos : 0 < d.utf8Size := d.utf8Size_pos
        exact consDigit_separate fun _ _ => by omega
    · rw [Bool.not_eq_true] at hblank
      rw [scanFrom_symbol hblank (h d rfl)]
      exact consDigit_separate fun _ hliteral => absurd hliteral ofChar_ne_literal

/-- A run of digits that no digit follows is one literal. -/
theorem scanFrom_digits (hne : ds ≠ []) (hds : ∀ c ∈ ds, c.isDigit = true) (h : DigitFree tail) :
    scanFrom offset (ds ++ tail) = ⟨.literal ds, offset⟩ :: scanFrom (offset + ds.length) tail := by
  induction ds generalizing offset with
  | nil => exact absurd rfl hne
  | cons c ds ih =>
    rw [List.cons_append, scanFrom_digit (hds c List.mem_cons_self)]
    cases ds with
    | nil => exact consDigit_of_digitFree h
    | cons d ds =>
      rw [ih (List.cons_ne_nil d ds) fun c hc => hds c (List.mem_cons_of_mem _ hc)]
      rw [consDigit, if_pos rfl, Nat.add_assoc, Nat.add_comm 1]
      rfl

private theorem consDigit_append (h : tokens ≠ []) (others : List Token) :
    consDigit c offset (tokens ++ others) = consDigit c offset tokens ++ others := by
  obtain ⟨⟨l, next⟩, rest, rfl⟩ := List.exists_cons_of_ne_nil h
  cases l with
  | literal digits =>
    rw [List.cons_append, consDigit, consDigit]
    split <;> rfl
  | _ => rfl

private theorem consDigit_ne_nil : consDigit c offset tokens ≠ [] := by
  rw [consDigit.eq_def]
  split
  · split
    · exact List.cons_ne_nil _ _
    · exact List.cons_ne_nil _ _
  · exact List.cons_ne_nil _ _

private theorem digitFree_of_scanFrom_eq_nil (h : scanFrom offset cs = []) : DigitFree cs := by
  intro d hd
  cases cs with
  | nil => cases hd
  | cons d cs =>
    cases hd
    rw [Bool.eq_false_iff]
    intro hdigit
    rw [scanFrom_digit hdigit] at h
    exact consDigit_ne_nil h

/-- No digit ends the first text where a digit begins the second. -/
def Apart (cs tail : List Char) : Prop := (∀ c ∈ cs.getLast?, c.isDigit = false) ∨ DigitFree tail

theorem apart_nil (tail : List Char) : Apart [] tail := .inl nofun

theorem Apart.of_cons (h : Apart (c :: cs) tail) : Apart cs tail := by
  cases cs with
  | nil => exact apart_nil tail
  | cons d cs => rwa [Apart, List.getLast?_cons_cons] at h

theorem Apart.digitFree (h : Apart [c] tail) (hdigit : c.isDigit = true) : DigitFree tail := by
  rcases h with h | h
  · have hfree : c.isDigit = false := h c rfl
    rw [hdigit] at hfree
    cases hfree
  · exact h

/-- Of texts that are apart each is scanned by itself. -/
theorem scanFrom_append (h : Apart cs tail) : scanFrom offset (cs ++ tail) =
    scanFrom offset cs ++ scanFrom (offset + (String.ofList cs).utf8ByteSize) tail := by
  induction cs generalizing offset with
  | nil => rfl
  | cons c cs ih =>
    have hrest : ∀ offset, scanFrom offset (cs ++ tail) =
        scanFrom offset cs ++ scanFrom (offset + (String.ofList cs).utf8ByteSize) tail :=
      fun offset => ih h.of_cons
    rw [List.cons_append, utf8ByteSize_ofList_cons, ← Nat.add_assoc]
    by_cases hblank : isBlank c = true
    · rw [scanFrom_blank hblank, scanFrom_blank hblank, hrest]
    · by_cases hdigit : c.isDigit = true
      · rw [scanFrom_digit hdigit, scanFrom_digit hdigit, utf8Size_of_isDigit hdigit]
        cases hscan : scanFrom (offset + 1) cs with
        | nil =>
          -- Nothing but blanks stands between the digit and the tail.
          have hfree : DigitFree (cs ++ tail) := by
            cases cs with
            | nil => exact h.digitFree hdigit
            | cons d cs => exact fun e he => digitFree_of_scanFrom_eq_nil hscan e he
          rw [consDigit_of_digitFree hfree, hrest, hscan]
          rfl
        | cons token tokens =>
          rw [hrest, hscan, consDigit_append (List.cons_ne_nil token tokens)]
      · rw [Bool.not_eq_true] at hblank hdigit
        rw [scanFrom_symbol hblank hdigit, scanFrom_symbol hblank hdigit, hrest, List.cons_append]

theorem scanFrom_blanks (hcs : ∀ c ∈ cs, isBlank c = true) (tail : List Char) :
    scanFrom offset (cs ++ tail) = scanFrom (offset + (String.ofList cs).utf8ByteSize) tail := by
  induction cs generalizing offset with
  | nil => rfl
  | cons c cs ih =>
    rw [List.cons_append, scanFrom_blank (hcs c List.mem_cons_self),
      ih fun d hd => hcs d (List.mem_cons_of_mem _ hd), utf8ByteSize_ofList_cons, Nat.add_assoc]

def shift (distance : Nat) (token : Token) : Token := ⟨token.lexeme, token.offset + distance⟩

private theorem consDigit_shift (distance : Nat) :
    consDigit c (offset + distance) (tokens.map (shift distance)) =
      (consDigit c offset tokens).map (shift distance) := by
  cases tokens with
  | nil => rfl
  | cons token tokens =>
    obtain ⟨l, next⟩ := token
    cases l with
    | literal digits =>
      rw [List.map_cons, shift]
      dsimp only
      rw [consDigit, consDigit]
      by_cases hnext : next = offset + 1
      · rw [if_pos (by omega), if_pos hnext]
        rfl
      · rw [if_neg (by omega), if_neg hnext]
        rfl
    | _ => rfl

theorem scanFrom_shift (distance : Nat) :
    scanFrom (offset + distance) cs = (scanFrom offset cs).map (shift distance) := by
  induction cs generalizing offset with
  | nil => rfl
  | cons c cs ih =>
    by_cases hblank : isBlank c = true
    · rw [scanFrom_blank hblank, scanFrom_blank hblank, Nat.add_right_comm, ih]
    · by_cases hdigit : c.isDigit = true
      · rw [scanFrom_digit hdigit, scanFrom_digit hdigit, Nat.add_right_comm, ih, consDigit_shift]
      · rw [Bool.not_eq_true] at hblank hdigit
        rw [scanFrom_symbol hblank hdigit, scanFrom_symbol hblank hdigit, Nat.add_right_comm, ih]
        rfl

/-- What the tokens of a text are does not depend on where it stands. -/
theorem lexemes_scanFrom (offset : Nat) (cs : List Char) :
    (scanFrom offset cs).map lexeme = (scanFrom 0 cs).map lexeme := by
  have hshift : scanFrom (0 + offset) cs = (scanFrom 0 cs).map (shift offset) :=
    scanFrom_shift offset
  rw [Nat.zero_add] at hshift
  rw [hshift, List.map_map]
  rfl

theorem lexemes_scan_append {s t : String} (h : DigitFree t.toList) :
    (scan (s ++ t)).map lexeme = (scan s).map lexeme ++ (scan t).map lexeme := by
  rw [scan, String.toList_append, scanFrom_append (.inr h), List.map_append,
    lexemes_scanFrom (_ + _)]
  rfl

end Token

end Univariate
