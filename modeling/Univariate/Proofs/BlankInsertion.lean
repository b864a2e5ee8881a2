import Mathlib.Data.List.Basic
import Univariate.Coefficient.Signed
import Univariate.Proofs.Scanning
import Univariate.SparsePoly.Text

/-! # Blanks between tokens

The readers look at what tokens are and never at where they stand.  So moved tokens are read as the
same terms, and an error moves with the token that it is about.  Blanks that are put into a text
between any two characters but two digits move the tokens behind them and do nothing else. -/

namespace Univariate

variable {move : Nat → Nat}

def Token.relocate (move : Nat → Nat) (token : Token) : Token := ⟨token.lexeme, move token.offset⟩

def ParseError.relocate (move : Nat → Nat) : ParseError → ParseError
  | noTerms => noTerms
  | unexpectedToken offset found => unexpectedToken (move offset) found
  | unexpectedEnd => unexpectedEnd
  | missingSign offset => missingSign (move offset)
  | integerOverflow offset literal => integerOverflow (move offset) literal

def Refusal.relocate (move : Nat → Nat) (r : Refusal) : Refusal :=
  ⟨r.error.relocate move, r.rest.map (Token.relocate move)⟩

def relocateResult {α : Type} (move : Nat → Nat) :
    Except Refusal (α × List Token) → Except Refusal (α × List Token)
  | .ok (a, rest) => .ok (a, rest.map (Token.relocate move))
  | .error r => .error (r.relocate move)

private theorem relocateResult_bind {α β : Type} {x : Except Refusal (α × List Token)}
    {g : α × List Token → Except Refusal (β × List Token)}
    (h : ∀ a rest, g (a, rest.map (Token.relocate move)) = relocateResult move (g (a, rest))) :
    relocateResult move x >>= g = relocateResult move (x >>= g) := by
  cases x with
  | error r => rfl
  | ok result => exact h result.1 result.2

namespace TermReader

variable {C : Type} [Coefficient C] {tokens : List Token}

private theorem unexpected_relocate : Refusal.unexpected (tokens.map (Token.relocate move)) =
    (Refusal.unexpected tokens).relocate move := by
  cases tokens <;> rfl

private theorem resume_relocate (r : Refusal) :
    (r.relocate move).resume = r.resume.map (Token.relocate move) := by
  simp only [Refusal.resume, Refusal.relocate, List.dropWhile_map]
  rfl

private theorem endsTerm_relocate :
    endsTerm (tokens.map (Token.relocate move)) = endsTerm tokens := by
  cases tokens <;> rfl

private theorem readLiteral_relocate {α : Type} (meaning : List Char → Option α) :
    readLiteral meaning (tokens.map (Token.relocate move)) =
      relocateResult move (readLiteral meaning tokens) := by
  cases tokens with
  | nil => rfl
  | cons token rest =>
    obtain ⟨l, offset⟩ := token
    cases l with
    | literal digits =>
      rw [List.map_cons, Token.relocate]
      cases hm : meaning digits <;> simp [readLiteral, hm, relocateResult, Refusal.relocate,
        ParseError.relocate, Token.relocate]
    | _ => rfl

private theorem readSign_relocate (required : Bool) :
    readSign required (tokens.map (Token.relocate move)) =
      relocateResult move (readSign required tokens) := by
  cases tokens with
  | nil => rfl
  | cons token rest =>
    obtain ⟨l, offset⟩ := token
    cases l with
    | plus | minus => rfl
    | _ => cases required <;> rfl

private theorem readExponent_relocate : readExponent (tokens.map (Token.relocate move)) =
    relocateResult move (readExponent tokens) := by
  cases tokens with
  | nil => rfl
  | cons token rest =>
    obtain ⟨l, offset⟩ := token
    cases l with
    | caret => exact readLiteral_relocate exponent?
    | _ => rfl

private theorem readPower_relocate : readPower (tokens.map (Token.relocate move)) =
    relocateResult move (readPower tokens) := by
  cases tokens with
  | nil => rfl
  | cons token rest =>
    obtain ⟨l, offset⟩ := token
    cases l with
    | x => exact readExponent_relocate
    | star =>
      cases rest with
      | nil => rfl
      | cons token rest =>
        obtain ⟨l, offset⟩ := token
        cases l with
        | x => exact readExponent_relocate
        | _ => rfl
    | _ => rfl

private theorem readUnsigned_relocate (negative : Bool) :
    readUnsigned (C := C) negative (tokens.map (Token.relocate move)) =
      relocateResult move (readUnsigned negative tokens) := by
  rw [readUnsigned, readUnsigned, readLiteral_relocate]
  apply relocateResult_bind
  intro c rest
  dsimp only
  rw [readPower_relocate]
  apply relocateResult_bind
  intro e rest
  dsimp only
  rw [endsTerm_relocate, unexpected_relocate]
  split <;> rfl

theorem readTerm_relocate (required : Bool) :
    readTerm (C := C) required (tokens.map (Token.relocate move)) =
      relocateResult move (readTerm required tokens) := by
  rw [readTerm, readTerm, readSign_relocate]
  exact relocateResult_bind fun negative rest => readUnsigned_relocate negative

end TermReader

namespace SparsePoly

variable {C : Type} [Coefficient C] {s blanks t : String}

/-- Moved tokens are read as the same terms, up to an error at the moved place. -/
theorem readTerms_relocate (mode : ParseMode) (first : Bool) (tokens : List Token) :
    readTerms (C := C) mode first (tokens.map (Token.relocate move)) =
      ((readTerms mode first tokens).1,
        (readTerms (C := C) mode first tokens).2.map (ParseError.relocate move)) := by
  induction hn : tokens.length using Nat.strongRecOn generalizing first tokens with
  | ind n ih =>
    cases tokens with
    | nil =>
      rw [List.map_nil, readTerms_nil]
      cases mode <;> cases first <;> rfl
    | cons token rest =>
      have hmoved : TermReader.readTerm (C := C) (mode.signRequired first)
          ((token :: rest).map (Token.relocate move)) = relocateResult move
            (TermReader.readTerm (mode.signRequired first) (token :: rest)) :=
        TermReader.readTerm_relocate _
      rw [List.map_cons] at hmoved ⊢
      cases hread : TermReader.readTerm (C := C) (mode.signRequired first) (token :: rest) with
      | ok result =>
        obtain ⟨term, behind⟩ := result
        rw [hread] at hmoved
        rw [readTerms_cons_of_ok hread, readTerms_cons_of_ok hmoved,
          ih _ (hn ▸ TermReader.length_lt_of_readTerm hread) false behind rfl]
      | error refusal =>
        rw [hread] at hmoved
        cases mode with
        | strict =>
          rw [readTerms_strict_of_error hread, readTerms_strict_of_error hmoved]
          rfl
        | permissive =>
          rw [readTerms_permissive_of_error hread, readTerms_permissive_of_error hmoved,
            TermReader.resume_relocate]
          exact ih _ (hn ▸ TermReader.length_resume_lt hread) first _ rfl

end SparsePoly

def Failure.mapReported {ε δ : Type} (change : ε → δ) : Failure ε → Failure δ
  | reported e => reported (change e)
  | stopped f => stopped f

/-- What stands at a position or behind it makes room of a certain length. -/
def makeRoom (position length offset : Nat) : Nat :=
  if position ≤ offset then offset + length else offset

private theorem Token.apart_of_not_digits {s t : List Char}
    (h : ¬ ((∃ c ∈ s.getLast?, c.isDigit = true) ∧ ∃ c ∈ t.head?, c.isDigit = true)) :
    Apart s t := by
  rw [not_and_or] at h
  simpa [Apart, DigitFree] using h

theorem Token.scan_insert_blanks {s blanks t : String}
    (hblanks : ∀ c ∈ blanks.toList, isBlank c = true) (hapart : Apart s.toList t.toList) :
    scan (s ++ blanks ++ t) =
      (scan (s ++ t)).map (relocate (makeRoom s.utf8ByteSize blanks.utf8ByteSize)) := by
  have hwide : Apart s.toList (blanks.toList ++ t.toList) := by
    cases hb : blanks.toList with
    | nil => exact hapart
    | cons b bs =>
      have hfree : b.isDigit = false :=
        not_isDigit_of_isBlank (hblanks b (hb ▸ List.mem_cons_self))
      exact .inr fun c hc => by cases hc; exact hfree
  have hleft : (scanFrom 0 s.toList).map (relocate (makeRoom s.utf8ByteSize blanks.utf8ByteSize)) =
      scanFrom 0 s.toList := by
    refine (List.map_congr_left fun token htoken => ?_).trans (List.map_id _)
    have hlt := offset_lt_of_mem_scanFrom htoken
    rw [String.ofList_toList, Nat.zero_add] at hlt
    rw [relocate, makeRoom, if_neg (Nat.not_le_of_lt hlt), id]
  have hright : (scanFrom s.utf8ByteSize t.toList).map
      (relocate (makeRoom s.utf8ByteSize blanks.utf8ByteSize)) =
        (scanFrom s.utf8ByteSize t.toList).map (shift blanks.utf8ByteSize) := by
    apply List.map_congr_left
    intro token htoken
    rw [relocate, makeRoom, if_pos (offset_le_of_mem_scanFrom htoken), shift]
  rw [scan, scan, String.toList_append, String.toList_append, String.toList_append,
    List.append_assoc, scanFrom_append hwide, scanFrom_append hapart, scanFrom_blanks hblanks,
    scanFrom_shift, List.map_append, String.ofList_toList, String.ofList_toList, Nat.zero_add,
    hleft, hright]

namespace SparsePoly

variable {C : Type} [Coefficient C] {s blanks t : String}

private theorem parse_of_scan_relocate
    (h : Token.scan s = (Token.scan t).map (Token.relocate move)) :
    parse (C := C) s = parse t := by
  rw [parse, parse, h, readTerms_relocate]

private theorem parseWith_of_scan_relocate (mode : ParseMode)
    (h : Token.scan s = (Token.scan t).map (Token.relocate move)) :
    parseWith (C := C) mode s =
      (parseWith mode t).mapError (Failure.mapReported (ParseError.relocate move)) := by
  rw [parseWith, parseWith, h, readTerms_relocate]
  dsimp only
  cases ofTerms (readTerms (C := C) mode true (Token.scan t)).1 with
  | error f => rfl
  | ok p => cases (readTerms (C := C) mode true (Token.scan t)).2 <;> rfl

/-- Blanks between two characters that are not both digits have no meaning, in either mode and for
any coefficients.  What is returned and what stops the reading stays the same; so does what is
reported, but for an offset behind the blanks, which grows by their length in bytes. -/
theorem parse_insert_blanks (hblanks : ∀ c ∈ blanks.toList, isBlank c = true)
    (hdigits : ¬ ((∃ c ∈ s.toList.getLast?, c.isDigit = true) ∧
      ∃ c ∈ t.toList.head?, c.isDigit = true)) (mode : ParseMode) :
    parse (C := C) (s ++ blanks ++ t) = parse (s ++ t) ∧
    parseWith (C := C) mode (s ++ blanks ++ t) = (parseWith mode (s ++ t)).mapError
      (Failure.mapReported (ParseError.relocate
        (makeRoom s.utf8ByteSize blanks.utf8ByteSize))) := by
  have hscan := Token.scan_insert_blanks hblanks (Token.apart_of_not_digits hdigits)
  exact ⟨parse_of_scan_relocate hscan, parseWith_of_scan_relocate mode hscan⟩

/-- Four bytes of blanks behind a literal move the letter that is refused.  Blanks behind the letter
do not. -/
theorem parse_insert_blanks_foreign_letter :
    let blanks := "\u3000 "
    (∀ c ∈ blanks.toList, isBlank c = true) ∧
    parse (C := Signed 32) ("2 - 5" ++ blanks ++ "y + 3x") =
      .ok ⟨[⟨0, ⟨2, by decide⟩⟩, ⟨1, ⟨3, by decide⟩⟩]⟩ ∧
    parseWith (C := Signed 32) .strict ("2 - 5" ++ blanks ++ "y + 3x") =
      .error (.reported (.unexpectedToken 9 "y")) ∧
    parseWith (C := Signed 32) .strict ("2 - 5y" ++ blanks ++ "+ 3x") =
      .error (.reported (.unexpectedToken 5 "y")) := by
  intro blanks
  have hblanks : ∀ c ∈ blanks.toList, isBlank c = true :=
    List.all_eq_true.1 (by decide +kernel)
  have hplain : parse (C := Signed 32) ("2 - 5" ++ "y + 3x") =
      .ok ⟨[⟨0, ⟨2, by decide⟩⟩, ⟨1, ⟨3, by decide⟩⟩]⟩ := by decide +kernel
  have hbefore : parseWith (C := Signed 32) .strict ("2 - 5" ++ "y + 3x") =
      .error (.reported (.unexpectedToken 5 "y")) := by decide +kernel
  have hbehind : parseWith (C := Signed 32) .strict ("2 - 5y" ++ "+ 3x") =
      .error (.reported (.unexpectedToken 5 "y")) := by decide +kernel
  obtain ⟨hparse, hstrict⟩ := parse_insert_blanks (C := Signed 32) (s := "2 - 5") (t := "y + 3x")
    hblanks (by simp) .strict
  obtain ⟨-, hunmoved⟩ := parse_insert_blanks (C := Signed 32) (s := "2 - 5y") (t := "+ 3x")
    hblanks (by simp) .strict
  refine ⟨hblanks, hparse.trans hplain, ?_, ?_⟩
  · rw [hstrict, hbefore]
    decide +kernel
  · rw [hunmoved, hbehind]
    decide +kernel

/-- Between two digits a blank has a meaning. -/
example : parse (C := Signed 32) "1 2" ≠ parse "12" := by decide +kernel

end SparsePoly

end Univariate
