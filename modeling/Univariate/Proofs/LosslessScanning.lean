import Univariate.Proofs.Scanning

/-! # Scanning loses nothing but blanks

A text is laid out as blanks, symbols of one character each, and runs of digits that no digit stands
next to.  The scanner finds this layout.  So every character other than a blank stands in a token,
no two tokens share a character, and each token is written in the text where it says that it
begins. -/

namespace Univariate

variable {offset : Nat} {cs : List Char} {tokens : List Token} {t : Token}

/-- The byte behind the last character of a token. -/
def Token.stop (t : Token) : Nat := t.offset + (String.ofList t.lexeme.text).utf8ByteSize

/-- A byte of the text belongs to one of the tokens. -/
def Covered (tokens : List Token) (place : Nat) : Prop :=
  ∃ t ∈ tokens, t.offset ≤ place ∧ place < t.stop

private theorem covered_cons {place : Nat} : Covered (t :: tokens) place ↔
    (t.offset ≤ place ∧ place < t.stop) ∨ Covered tokens place := by
  simp [Covered]

/-- The tokens of a text that begins at a given offset, one behind the other. -/
inductive Layout : Nat → List Char → List Token → Prop
  | nil {offset : Nat} : Layout offset [] []
  | blank {offset : Nat} {c : Char} {cs : List Char} {tokens : List Token}
      (hblank : isBlank c = true) (rest : Layout (offset + c.utf8Size) cs tokens) :
      Layout offset (c :: cs) tokens
  | symbol {offset : Nat} {c : Char} {cs : List Char} {tokens : List Token}
      (hblank : isBlank c = false) (hdigit : c.isDigit = false)
      (rest : Layout (offset + c.utf8Size) cs tokens) :
      Layout offset (c :: cs) (⟨.ofChar c, offset⟩ :: tokens)
  | numeral {offset : Nat} {digits cs : List Char} {tokens : List Token}
      (hdigits : Lexeme.IsNumeral digits) (hfree : Token.DigitFree cs)
      (rest : Layout (offset + digits.length) cs tokens) :
      Layout offset (digits ++ cs) (⟨.literal digits, offset⟩ :: tokens)

private theorem utf8ByteSize_digits {digits : List Char} (h : ∀ c ∈ digits, c.isDigit = true) :
    (String.ofList digits).utf8ByteSize = digits.length := by
  induction digits with
  | nil => rfl
  | cons c digits ih =>
    rw [Token.utf8ByteSize_ofList_cons, Token.utf8Size_of_isDigit (h c List.mem_cons_self),
      ih fun d hd => h d (List.mem_cons_of_mem _ hd), List.length_cons, Nat.add_comm]

private theorem Token.stop_ofChar (c : Char) (offset : Nat) :
    (⟨.ofChar c, offset⟩ : Token).stop = offset + c.utf8Size := by
  rw [stop, Lexeme.text_ofChar, utf8ByteSize_ofList_cons]
  rfl

private theorem Token.stop_literal {digits : List Char} (h : Lexeme.IsNumeral digits)
    (offset : Nat) :
    (⟨.literal digits, offset⟩ : Token).stop = offset + digits.length := by
  rw [stop, Lexeme.text, utf8ByteSize_digits h.2]

namespace Layout

/-- The scanner finds the layout of every text. -/
theorem of_scanFrom (offset : Nat) (cs : List Char) :
    Layout offset cs (Token.scanFrom offset cs) := by
  induction hn : cs.length using Nat.strongRecOn generalizing offset cs with
  | ind n ih =>
    cases cs with
    | nil => exact .nil
    | cons c rest =>
      have hlt : rest.length < n := hn ▸ Nat.lt_succ_self _
      by_cases hblank : isBlank c = true
      · rw [Token.scanFrom_blank hblank]
        exact .blank hblank (ih _ hlt _ _ rfl)
      by_cases hdigit : c.isDigit = true
      · -- The whole run of digits is one token, so the induction is on the length.
        have hrun : c :: rest =
            (c :: rest.takeWhile Char.isDigit) ++ rest.dropWhile Char.isDigit := by
          rw [List.cons_append, List.takeWhile_append_dropWhile]
        have hdigits : Lexeme.IsNumeral (c :: rest.takeWhile Char.isDigit) :=
          ⟨List.cons_ne_nil _ _, List.forall_mem_cons.2
            ⟨hdigit, List.all_eq_true.1 List.all_takeWhile⟩⟩
        have hfree : Token.DigitFree (rest.dropWhile Char.isDigit) := by
          intro d hd
          have hhead := List.head?_dropWhile_not Char.isDigit rest
          rwa [Option.mem_def.1 hd] at hhead
        have hle : (rest.dropWhile Char.isDigit).length ≤ rest.length :=
          (List.dropWhile_suffix _).length_le
        rw [hrun, Token.scanFrom_digits hdigits.1 hdigits.2 hfree]
        exact .numeral hdigits hfree (ih _ (by omega) _ _ rfl)
      · rw [Bool.not_eq_true] at hblank hdigit
        rw [Token.scanFrom_symbol hblank hdigit]
        exact .symbol hblank hdigit (ih _ hlt _ _ rfl)

theorem offset_le (h : Layout offset cs tokens) (ht : t ∈ tokens) : offset ≤ t.offset := by
  induction h with
  | nil => cases ht
  | blank _ _ ih => exact Nat.le_trans (Nat.le_add_right ..) (ih ht)
  | symbol _ _ _ ih =>
    rcases List.mem_cons.1 ht with rfl | ht
    · exact Nat.le_refl _
    · exact Nat.le_trans (Nat.le_add_right ..) (ih ht)
  | numeral _ _ _ ih =>
    rcases List.mem_cons.1 ht with rfl | ht
    · exact Nat.le_refl _
    · exact Nat.le_trans (Nat.le_add_right ..) (ih ht)

theorem pairwise_stop_le (h : Layout offset cs tokens) :
    tokens.Pairwise fun s t => s.stop ≤ t.offset := by
  induction h with
  | nil => exact .nil
  | blank _ _ ih => exact ih
  | symbol _ _ rest ih =>
    refine List.pairwise_cons.2 ⟨fun t ht => ?_, ih⟩
    rw [Token.stop_ofChar]
    exact rest.offset_le ht
  | numeral hdigits _ rest ih =>
    refine List.pairwise_cons.2 ⟨fun t ht => ?_, ih⟩
    rw [Token.stop_literal hdigits]
    exact rest.offset_le ht

theorem lexeme_cases (h : Layout offset cs tokens) (ht : t ∈ tokens) :
    (∃ c, t.lexeme = .ofChar c ∧ isBlank c = false ∧ c.isDigit = false) ∨
      ∃ digits, t.lexeme = .literal digits ∧ Lexeme.IsNumeral digits := by
  induction h with
  | nil => cases ht
  | blank _ _ ih => exact ih ht
  | symbol hblank hdigit _ ih =>
    rcases List.mem_cons.1 ht with rfl | ht
    · exact .inl ⟨_, rfl, hblank, hdigit⟩
    · exact ih ht
  | numeral hdigits _ _ ih =>
    rcases List.mem_cons.1 ht with rfl | ht
    · exact .inr ⟨_, rfl, hdigits⟩
    · exact ih ht

def EndsApart (cs : List Char) : Prop := ∀ c ∈ cs.getLast?, c.isDigit = false

private theorem endsApart_cons {c : Char} (hc : c.isDigit = false) (h : EndsApart cs) :
    EndsApart (c :: cs) := by
  intro d hd
  cases cs with
  | nil =>
    cases hd
    exact hc
  | cons e cs => exact h d (List.getLast?_cons_cons ▸ hd)

theorem exists_maximal_run {digits : List Char} (h : Layout offset cs tokens) (ht : t ∈ tokens)
    (hliteral : t.lexeme = .literal digits) : ∃ before behind, cs = before ++ digits ++ behind ∧
      t.offset = offset + (String.ofList before).utf8ByteSize ∧
      EndsApart before ∧ Token.DigitFree behind := by
  induction h with
  | nil => cases ht
  | blank hblank _ ih =>
    obtain ⟨before, behind, rfl, hoffset, hlast, hfree⟩ := ih ht
    have hdigit := not_isDigit_of_isBlank hblank
    refine ⟨_ :: before, behind, rfl, ?_, endsApart_cons hdigit hlast, hfree⟩
    rw [hoffset, Token.utf8ByteSize_ofList_cons, Nat.add_assoc]
  | symbol _ hdigit _ ih =>
    rcases List.mem_cons.1 ht with rfl | ht
    · exact absurd hliteral Token.ofChar_ne_literal
    · obtain ⟨before, behind, rfl, hoffset, hlast, hfree⟩ := ih ht
      refine ⟨_ :: before, behind, rfl, ?_, endsApart_cons hdigit hlast, hfree⟩
      rw [hoffset, Token.utf8ByteSize_ofList_cons, Nat.add_assoc]
  | @numeral offset run cs tokens hrun hfree rest ih =>
    rcases List.mem_cons.1 ht with rfl | ht
    · cases hliteral
      exact ⟨[], cs, rfl, rfl, nofun, hfree⟩
    · obtain ⟨before, behind, rfl, hoffset, hlast, hbehind⟩ := ih ht
      refine ⟨run ++ before, behind, by simp, ?_, ?_, hbehind⟩
      · rw [hoffset, String.ofList_append, String.utf8ByteSize_append, utf8ByteSize_digits hrun.2,
          Nat.add_assoc]
      · -- The next literal cannot begin where the run has ended.
        cases before with
        | nil =>
          rcases rest.lexeme_cases ht with ⟨c, hc, -⟩ | ⟨others, hothers, hne, hdigits⟩
          · exact absurd (hc.symm.trans hliteral) Token.ofChar_ne_literal
          · cases hothers.symm.trans hliteral
            obtain ⟨d, others, rfl⟩ := List.exists_cons_of_ne_nil hne
            have hd : d.isDigit = false := hfree d rfl
            rw [hdigits d List.mem_cons_self] at hd
            cases hd
        | cons c before => rwa [EndsApart, List.getLast?_append, List.getLast?_cons, Option.some_or,
          ← List.getLast?_cons]

/-- A character belongs to a token exactly if it is no blank. -/
theorem covered_iff {before behind : List Char} {c : Char} (h : Layout offset cs tokens)
    (hcs : cs = before ++ c :: behind) :
    Covered tokens (offset + (String.ofList before).utf8ByteSize) ↔ isBlank c = false := by
  induction h generalizing before with
  | nil => exact absurd hcs (by simp)
  | @blank offset d cs tokens hblank rest ih =>
    cases before with
    | nil =>
      obtain ⟨rfl, rfl⟩ := List.cons.inj hcs
      have hpos : 0 < d.utf8Size := d.utf8Size_pos
      rw [hblank]
      refine ⟨fun ⟨t, ht, hle, _⟩ => ?_, nofun⟩
      have hbehind := rest.offset_le ht
      simp only [String.ofList_nil, String.utf8ByteSize_empty] at hle
      omega
    | cons e before =>
      obtain ⟨rfl, rfl⟩ := List.cons.inj hcs
      rw [Token.utf8ByteSize_ofList_cons, ← Nat.add_assoc]
      exact ih rfl
  | @symbol offset d cs tokens hblank hdigit rest ih =>
    rw [covered_cons, Token.stop_ofChar]
    cases before with
    | nil =>
      obtain ⟨rfl, rfl⟩ := List.cons.inj hcs
      exact iff_of_true (.inl ⟨Nat.le_refl _, Nat.lt_add_of_pos_right d.utf8Size_pos⟩) hblank
    | cons e before =>
      obtain ⟨rfl, rfl⟩ := List.cons.inj hcs
      rw [Token.utf8ByteSize_ofList_cons, ← Nat.add_assoc, or_iff_right (by omega)]
      exact ih rfl
  | @numeral offset run cs tokens hrun hfree rest ih =>
    rw [covered_cons, Token.stop_literal hrun]
    -- The character stands behind the run or in it.
    have hplace : (∃ mid, before = run ++ mid ∧ cs = mid ++ c :: behind) ∨
        ∃ mid, run = before ++ c :: mid := by
      rcases List.append_eq_append_iff.1 hcs with hbehind | ⟨mid, hinside, hmid⟩
      · exact .inl hbehind
      · cases mid with
        | nil => exact .inl ⟨[], by simpa using hinside.symm, hmid.symm⟩
        | cons d mid =>
          cases (List.cons.inj hmid).1
          exact .inr ⟨mid, hinside⟩
    rcases hplace with ⟨mid, rfl, hmid⟩ | ⟨mid, rfl⟩
    · rw [String.ofList_append, String.utf8ByteSize_append, utf8ByteSize_digits hrun.2,
        or_iff_right (by omega), ← Nat.add_assoc]
      exact ih hmid
    · have hc : c.isDigit = true := hrun.2 c (by simp)
      have hbefore : (String.ofList before).utf8ByteSize = before.length :=
        utf8ByteSize_digits fun d hd => hrun.2 d (by simp [hd])
      refine iff_of_true (.inl ⟨Nat.le_add_right .., ?_⟩) (Token.isBlank_of_isDigit hc)
      rw [hbefore, List.length_append, List.length_cons]
      omega

end Layout

/-- The tokens of a text hold all of it but the blanks, and each of them as much as it can. -/
structure Lossless (text : String) (tokens : List Token) : Prop where
  ascending : tokens.Pairwise fun s t => s.offset < t.offset
  disjoint : tokens.Pairwise fun s t => s.stop ≤ t.offset
  /-- A token is written where it begins, which is between two characters. -/
  standsIn : ∀ t ∈ tokens, t.StandsIn text
  /-- Given by the byte at which it begins, a character belongs to no token if it is a blank, and
  to a token if not. -/
  uncovered : ∀ before c behind, text = before ++ String.singleton c ++ behind →
    (¬ Covered tokens before.utf8ByteSize ↔ isBlank c = true)
  maximal : ∀ t ∈ tokens, ∀ digits, t.lexeme = .literal digits →
    Lexeme.IsNumeral digits ∧ ∃ before behind : String,
      text = before ++ String.ofList digits ++ behind ∧ t.offset = before.utf8ByteSize ∧
      (∀ c ∈ before.toList.getLast?, c.isDigit = false) ∧
      ∀ c ∈ behind.toList.head?, c.isDigit = false
  single : ∀ t ∈ tokens, (∀ digits, t.lexeme ≠ .literal digits) →
    ∃ c, t.lexeme = .ofChar c ∧ t.lexeme.text = [c]

/-- Every text is scanned without a loss. -/
theorem lossless_scan (text : String) : Lossless text (Token.scan text) := by
  have hlayout : Layout 0 text.toList (Token.scan text) := Layout.of_scanFrom 0 text.toList
  constructor
  · exact Token.pairwise_scanFrom 0 text.toList
  · exact hlayout.pairwise_stop_le
  · exact fun t ht => Token.standsIn_of_mem_scan ht
  · intro before c behind htext
    have hcs : text.toList = before.toList ++ c :: behind.toList := by
      rw [htext]
      simp
    have hcovered := hlayout.covered_iff hcs
    rw [Nat.zero_add, String.ofList_toList] at hcovered
    rw [hcovered, Bool.not_eq_false]
  · intro t ht digits hliteral
    obtain ⟨before, behind, htext, hoffset, hlast, hfree⟩ := hlayout.exists_maximal_run ht hliteral
    have hdigits : Lexeme.IsNumeral digits := by
      rcases hlayout.lexeme_cases ht with ⟨c, hc, -⟩ | ⟨others, hothers, hdigits⟩
      · exact absurd (hc.symm.trans hliteral) Token.ofChar_ne_literal
      · cases hothers.symm.trans hliteral
        exact hdigits
    refine ⟨hdigits, String.ofList before, String.ofList behind, ?_, ?_, ?_, ?_⟩
    · rw [← String.ofList_append, ← String.ofList_append, ← htext, String.ofList_toList]
    · rw [hoffset, Nat.zero_add]
    · rw [String.toList_ofList]
      exact hlast
    · rw [String.toList_ofList]
      exact hfree
  · intro t ht hother
    rcases hlayout.lexeme_cases ht with ⟨c, hc, -⟩ | ⟨digits, hdigits, -⟩
    · exact ⟨c, hc, by rw [hc, Lexeme.text_ofChar]⟩
    · exact absurd hdigits (hother digits)

/-- Digits of other scripts are characters by themselves, and blanks may take several bytes. -/
example : Token.scan "é12\u30003٣" = [⟨.other 'é', 0⟩, ⟨.literal ['1', '2'], 2⟩,
    ⟨.literal ['3'], 7⟩, ⟨.other '٣', 8⟩] := by decide +kernel

end Univariate
