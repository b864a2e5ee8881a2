import Univariate.Proofs.StrictLanguage

/-! # Stages of strict reading

How a text may go on depends on nothing but what stands last in it.  The strict mode goes from one
such stage to the next, and ends with the error that a stage has for the first token it does not
accept, or for the end of the text. -/

namespace Univariate

/-- What stands last in front of a position. -/
inductive Stage
  /-- Nothing stands there. -/
  | start
  | sign (negative : Bool)
  | coefficient
  | star
  | x
  | caret
  | exponent
  deriving DecidableEq, Repr

namespace Stage

def complete : Stage → Bool
  | coefficient | x | exponent => true
  | _ => false

def takesSign (stage : Stage) : Bool := stage == start || stage.complete

def takesLiteral : Stage → Bool
  | start | sign _ | caret => true
  | _ => false

/-- The stage behind a literal, which has to be in range. -/
def behindLiteral (C : Type) [Coefficient C] (digits : List Char) : Stage → Option Stage
  | start => (TermReader.coefficient? (C := C) false digits).map fun _ => coefficient
  | sign negative => (TermReader.coefficient? (C := C) negative digits).map fun _ => coefficient
  | caret => (TermReader.exponent? digits).map fun _ => exponent
  | _ => none

/-- The stage behind a lexeme, if the lexeme can follow. -/
def advance (C : Type) [Coefficient C] (stage : Stage) : Lexeme → Option Stage
  | .plus => if stage.takesSign then some (sign false) else none
  | .minus => if stage.takesSign then some (sign true) else none
  | .literal digits => stage.behindLiteral C digits
  | .star => if stage = coefficient then some star else none
  | .x => if stage = coefficient ∨ stage = star then some x else none
  | .caret => if stage = x then some caret else none
  | .other _ => none

def run (C : Type) [Coefficient C] (stage : Stage) (ls : List Lexeme) : Option Stage :=
  ls.foldlM (advance C) stage

def refusal (stage : Stage) (token : Token) : ParseError :=
  if token.lexeme.isLiteral && stage.takesLiteral then
    .integerOverflow token.offset (String.ofList token.lexeme.text)
  else if token.lexeme.isLiteral && stage.complete then .missingSign token.offset
  else .unexpectedToken token.offset (String.ofList token.lexeme.text)

def endError (stage : Stage) : Option ParseError :=
  if stage = start then some .noTerms
  else if stage.complete then none
  else some .unexpectedEnd

/-- The error that ends the tokens behind a stage. -/
def errorFrom (C : Type) [Coefficient C] : Stage → List Token → Option ParseError
  | stage, [] => stage.endError
  | stage, token :: rest =>
    match stage.advance C token.lexeme with
    | some next => errorFrom C next rest
    | none => some (stage.refusal token)

variable {C : Type} [Coefficient C] {stage next : Stage} {token : Token}
  {tokens used rest : List Token}

theorem errorFrom_of_advance (h : stage.advance C token.lexeme = some next) :
    errorFrom C stage (token :: rest) = errorFrom C next rest := by
  rw [errorFrom, h]

theorem errorFrom_of_refused (h : stage.advance C token.lexeme = none) :
    errorFrom C stage (token :: rest) = some (stage.refusal token) := by
  rw [errorFrom, h]

theorem run_cons (l : Lexeme) (ls : List Lexeme) :
    run C stage (l :: ls) = (stage.advance C l).bind fun next => next.run C ls :=
  List.foldlM_cons

theorem run_singleton (l : Lexeme) : run C stage [l] = stage.advance C l :=
  (run_cons l []).trans (Option.bind_fun_some _)

theorem run_append (ls ms : List Lexeme) :
    run C stage (ls ++ ms) = (stage.run C ls).bind fun next => next.run C ms :=
  List.foldlM_append

theorem run_concat (ls : List Lexeme) (l : Lexeme) :
    run C stage (ls ++ [l]) = (stage.run C ls).bind fun next => next.advance C l := by
  rw [run_append]
  simp only [run_singleton]

theorem errorFrom_append (h : run C stage (used.map Token.lexeme) = some next) :
    errorFrom C stage (used ++ rest) = errorFrom C next rest := by
  induction used generalizing stage with
  | nil =>
    cases h
    rfl
  | cons token used ih =>
    rw [List.map_cons, run_cons] at h
    obtain ⟨behind, hadvance, hrun⟩ := Option.bind_eq_some_iff.1 h
    rw [List.cons_append, errorFrom_of_advance hadvance, ih hrun]

theorem errorFrom_append_of_refused (h : run C stage (used.map Token.lexeme) = none) :
    errorFrom C stage (used ++ rest) = errorFrom C stage used := by
  induction used generalizing stage with
  | nil => cases h
  | cons token used ih =>
    rw [List.cons_append]
    cases hadvance : stage.advance C token.lexeme with
    | none => rw [errorFrom_of_refused hadvance, errorFrom_of_refused hadvance]
    | some next =>
      rw [List.map_cons, run_cons, hadvance] at h
      rw [errorFrom_of_advance hadvance, errorFrom_of_advance hadvance, ih h]

private theorem exists_mem_of_integerOverflow {offset : Nat} {literal : String}
    (h : errorFrom C stage tokens = some (.integerOverflow offset literal)) :
    ∃ token ∈ tokens, token.offset = offset := by
  induction tokens generalizing stage with
  | nil => cases stage <;> simp [errorFrom, endError, complete] at h
  | cons token tokens ih =>
    cases hadvance : stage.advance C token.lexeme with
    | none =>
      rw [errorFrom_of_refused hadvance, refusal] at h
      refine ⟨token, List.mem_cons_self, ?_⟩
      split at h
      · cases h
        rfl
      · split at h <;> cases h
    | some next =>
      rw [errorFrom_of_advance hadvance] at h
      obtain ⟨found, hfound, hoffset⟩ := ih h
      exact ⟨found, List.mem_cons_of_mem _ hfound, hoffset⟩

/-- An error about a literal whose offset no other token has is the refusal of this literal. -/
theorem refusal_of_integerOverflow {literal : String}
    (hoffsets : (used ++ token :: rest).Pairwise fun s t => s.offset < t.offset)
    (h : errorFrom C stage (used ++ token :: rest) =
      some (.integerOverflow token.offset literal)) :
    ∃ behind, run C stage (used.map Token.lexeme) = some behind ∧
      behind.advance C token.lexeme = none ∧
      behind.refusal token = .integerOverflow token.offset literal := by
  obtain ⟨-, hbehind, hbefore⟩ := List.pairwise_append.1 hoffsets
  cases hrun : run C stage (used.map Token.lexeme) with
  | none =>
    rw [errorFrom_append_of_refused hrun] at h
    obtain ⟨other, hother, hsame⟩ := exists_mem_of_integerOverflow h
    have hlt := hbefore other hother token List.mem_cons_self
    omega
  | some behind =>
    rw [errorFrom_append hrun] at h
    cases hadvance : behind.advance C token.lexeme with
    | none =>
      rw [errorFrom_of_refused hadvance] at h
      exact ⟨behind, rfl, hadvance, Option.some.inj h⟩
    | some next =>
      rw [errorFrom_of_advance hadvance] at h
      obtain ⟨other, hother, hsame⟩ := exists_mem_of_integerOverflow h
      have hlt := (List.pairwise_cons.1 hbehind).1 other hother
      omega

private theorem endError_eq_none_iff : stage.endError = none ↔ stage.complete = true := by
  cases stage <;> simp [endError, complete]

theorem errorFrom_eq_none_iff : errorFrom C stage tokens = none ↔
    ∃ last, run C stage (tokens.map Token.lexeme) = some last ∧ last.complete = true := by
  induction tokens generalizing stage with
  | nil =>
    rw [errorFrom, endError_eq_none_iff]
    simp [run]
  | cons token tokens ih =>
    rw [List.map_cons, run_cons]
    cases hadvance : stage.advance C token.lexeme with
    | none => simp [errorFrom_of_refused hadvance]
    | some next => rw [errorFrom_of_advance hadvance, ih, Option.bind_some]

/-- The error behind what a reader gives, if the reader ends in a given stage. -/
def errorBehind (C : Type) [Coefficient C] {α : Type} (next : Stage) :
    Except Refusal (α × List Token) → Option ParseError
  | .error refusal => some refusal.error
  | .ok (_, rest) => errorFrom C next rest

theorem takesLiteral_of_complete (h : stage.complete = true) : stage.takesLiteral = false := by
  cases stage with
  | coefficient | x | exponent => rfl
  | _ => cases h

private theorem advance_of_takesLiteral {l : Lexeme} (htakes : stage.takesLiteral = true)
    (hstart : stage ≠ start) (hl : l.isLiteral = false) : stage.advance C l = none := by
  cases stage with
  | start => exact absurd rfl hstart
  | sign | caret =>
    cases l with
    | literal digits => cases hl
    | _ => rfl
  | _ => cases htakes

private theorem errorFrom_readLiteral {α : Type} {meaning : List Char → Option α}
    (hliteral : ∀ digits, stage.behindLiteral C digits = (meaning digits).map fun _ => next)
    (htakes : stage.takesLiteral = true) (hstart : stage ≠ start) :
    errorFrom C stage tokens = errorBehind C next (TermReader.readLiteral meaning tokens) := by
  cases tokens with
  | nil =>
    have hincomplete : stage.complete = false := by
      rw [Bool.eq_false_iff]
      intro hcomplete
      rw [takesLiteral_of_complete hcomplete] at htakes
      cases htakes
    rw [errorFrom, endError, if_neg hstart, hincomplete]
    rfl
  | cons token rest =>
    obtain ⟨l, offset⟩ := token
    cases hl : l.isLiteral with
    | false =>
      rw [errorFrom_of_refused (advance_of_takesLiteral htakes hstart hl), refusal, hl]
      cases l with
      | literal digits => cases hl
      | _ => rfl
    | true =>
      cases l with
      | literal digits =>
        cases hm : meaning digits with
        | none =>
          have hrefused : stage.advance C (.literal digits) = none := by
            rw [advance, hliteral, hm, Option.map_none]
          rw [errorFrom_of_refused hrefused, TermReader.readLiteral, hm, refusal, htakes]
          rfl
        | some a =>
          have hadvance : stage.advance C (.literal digits) = some next := by
            rw [advance, hliteral, hm, Option.map_some]
          rw [errorFrom_of_advance hadvance, TermReader.readLiteral, hm]
          rfl
      | _ => cases hl

private theorem errorFrom_caret : errorFrom C .caret tokens =
    errorBehind C .exponent (TermReader.readLiteral TermReader.exponent? tokens) :=
  errorFrom_readLiteral (fun _ => rfl) rfl nofun

private theorem errorFrom_x : errorFrom C .x tokens =
    errorBehind C .exponent (TermReader.readExponent tokens) := by
  cases tokens with
  | nil => rfl
  | cons token rest =>
    obtain ⟨l, offset⟩ := token
    cases l with
    | caret => exact errorFrom_caret
    | _ => rfl

private theorem errorFrom_coefficient : errorFrom C .coefficient tokens =
    errorBehind C .exponent (TermReader.readPower tokens) := by
  cases tokens with
  | nil => rfl
  | cons token rest =>
    obtain ⟨l, offset⟩ := token
    cases l with
    | x => exact errorFrom_x
    | star =>
      cases rest with
      | nil => rfl
      | cons token rest =>
        obtain ⟨l, offset⟩ := token
        cases l with
        | x => exact errorFrom_x
        | _ => rfl
    | _ => rfl

private theorem errorFrom_exponent_of_not_endsTerm (h : TermReader.endsTerm tokens = false) :
    errorFrom C .exponent tokens = some (Refusal.unexpected tokens).error := by
  cases tokens with
  | nil => cases h
  | cons token rest =>
    obtain ⟨l, offset⟩ := token
    cases l with
    | plus | minus | literal digits => cases h
    | _ => rfl

theorem errorFrom_sign {negative : Bool} : errorFrom C (.sign negative) tokens =
    errorBehind C .exponent (TermReader.readUnsigned (C := C) negative tokens) := by
  have hliteral : errorFrom C (.sign negative) tokens = errorBehind C .coefficient
      (TermReader.readLiteral (TermReader.coefficient? (C := C) negative) tokens) :=
    errorFrom_readLiteral (fun _ => rfl) rfl nofun
  rw [hliteral, TermReader.readUnsigned]
  cases TermReader.readLiteral (TermReader.coefficient? (C := C) negative) tokens with
  | error refusal => rfl
  | ok result =>
    obtain ⟨c, behind⟩ := result
    rw [ok_bind, errorBehind, errorFrom_coefficient]
    dsimp only
    cases TermReader.readPower behind with
    | error refusal => rfl
    | ok result =>
      obtain ⟨e, rest⟩ := result
      rw [ok_bind, errorBehind]
      dsimp only
      cases hend : TermReader.endsTerm rest with
      | true => rfl
      | false => exact errorFrom_exponent_of_not_endsTerm hend

private theorem errorFrom_start_of_not_isSign (h : token.lexeme.isSign = false) :
    errorFrom C .start (token :: rest) = errorFrom C (.sign false) (token :: rest) := by
  obtain ⟨l, offset⟩ := token
  cases l with
  | plus | minus => cases h
  | _ => rfl

def beforeTerm (first : Bool) : Stage := if first then .start else .exponent

theorem errorFrom_beforeTerm {first : Bool}
    (hend : first = false → TermReader.endsTerm (token :: rest) = true) :
    errorFrom C (beforeTerm first) (token :: rest) =
      errorBehind C .exponent (TermReader.readTerm (C := C) (!first) (token :: rest)) := by
  obtain ⟨l, offset⟩ := token
  cases first with
  | true =>
    cases l with
    | plus => exact errorFrom_sign
    | minus => exact errorFrom_sign
    | _ => exact (errorFrom_start_of_not_isSign rfl).trans errorFrom_sign
  | false =>
    cases l with
    | plus => exact errorFrom_sign
    | minus => exact errorFrom_sign
    | literal digits => rfl
    | _ => cases hend rfl

end Stage

namespace SparsePoly

variable {C : Type} [Coefficient C] {first : Bool} {tokens : List Token}

/-- What ends the terms that the strict mode reads is the error that ends the stages. -/
theorem readTerms_strict_snd (hend : first = false → TermReader.endsTerm tokens = true) :
    (readTerms (C := C) .strict first tokens).2 =
      Stage.errorFrom C (Stage.beforeTerm first) tokens := by
  induction hn : tokens.length using Nat.strongRecOn generalizing first tokens with
  | ind n ih =>
    cases tokens with
    | nil =>
      rw [readTerms_nil]
      cases first <;> rfl
    | cons token behind =>
      rw [Stage.errorFrom_beforeTerm hend]
      cases hread : TermReader.readTerm (C := C) (!first) (token :: behind) with
      | error refusal =>
        rw [readTerms_strict_of_error hread]
        rfl
      | ok result =>
        obtain ⟨term, mid⟩ := result
        have hread' : TermReader.readTerm (ParseMode.strict.signRequired first)
            (token :: behind) = .ok (term, mid) := hread
        have hmid : TermReader.endsTerm mid = true := (TermReader.readTerm_eq_ok_iff.1 hread).1
        rw [readTerms_cons_of_ok hread']
        exact ih _ (hn ▸ TermReader.length_lt_of_readTerm hread) (fun _ => hmid) rfl

theorem readTerms_strict_start :
    (readTerms (C := C) .strict true tokens).2 = Stage.errorFrom C .start tokens :=
  readTerms_strict_snd nofun

end SparsePoly

end Univariate
