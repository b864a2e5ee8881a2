import Univariate.Coefficient.Floating
import Univariate.Proofs.Scanning
import Univariate.Proofs.Stages

/-! # The first offending token

The strict mode reports the first token with which nothing that is accepted begins.  Which stages
a text can reach decides both what is accepted and what can still become so: from every stage there
is a way to the end of a term. -/

namespace Univariate

variable {C : Type} [Coefficient C]

namespace WrittenTerm

/-- The literals are in range: they denote a coefficient and an exponent. -/
structure Readable (C : Type) [Coefficient C] (t : WrittenTerm) : Prop where
  magnitude : TermReader.literalValue t.digits ≤ TermReader.largestMagnitude
  value : (Coefficient.ofInt? t.value : Option C).isSome = true
  exponent : t.exponent < 2 ^ 32

variable {t : WrittenTerm}

private theorem readable_iff : t.Readable C ↔ ∃ term : Term C, t.Means term := by
  constructor
  · rintro ⟨hle, hvalue, hlt⟩
    obtain ⟨c, hc⟩ := Option.isSome_iff_exists.1 hvalue
    refine ⟨⟨⟨t.exponent, hlt⟩, c⟩, ?_, rfl⟩
    rw [TermReader.coefficient?]
    exact (if_pos hle).trans hc
  · rintro ⟨term, hcoeff, hexponent⟩
    rw [TermReader.coefficient?] at hcoeff
    split at hcoeff
    · rename_i hle
      exact ⟨hle, Option.isSome_iff_exists.2 ⟨_, hcoeff⟩, hexponent ▸ term.exponent.isLt⟩
    · cases hcoeff

end WrittenTerm

def Numerals (ls : List Lexeme) : Prop := ∀ digits, .literal digits ∈ ls → Lexeme.IsNumeral digits

/-- One or more terms in a row, all but the first with a sign and all with literals in range. -/
def Accepted (C : Type) [Coefficient C] (ls : List Lexeme) : Prop :=
  Numerals ls ∧ ∃ ts : List WrittenTerm, ts ≠ [] ∧ (∀ t ∈ ts.tail, t.sign.isSome = true) ∧
    (∀ t ∈ ts, t.Readable C) ∧ ls = ts.flatMap WrittenTerm.lexemes

/-- Something accepted begins like this. -/
def Viable (C : Type) [Coefficient C] (ls : List Lexeme) : Prop := ∃ ms, Accepted C ms ∧ ls <+: ms

/-- Nothing accepted begins with the lexemes up to a position and the one that stands there, and
this is the first such position. -/
structure FirstOffense (C : Type) [Coefficient C] (ls : List Lexeme) (k : Nat) : Prop where
  bound : k < ls.length
  offends : ¬ Viable C (ls.take (k + 1))
  least : ∀ n < k, Viable C (ls.take (n + 1))

/-- The error blames a token behind certain lexemes for what is wrong with it. -/
structure Blames (C : Type) [Coefficient C] (before : List Lexeme) (token : Token)
    (e : ParseError) : Prop where
  /-- Another literal could stand here, so the literal is out of range. -/
  integerOverflow : ∀ digits other, token.lexeme = .literal digits →
    Viable C (before ++ [.literal other]) → e = .integerOverflow token.offset (String.ofList digits)
  /-- A literal stands right behind a whole term. -/
  missingSign : ∀ digits, token.lexeme = .literal digits → Accepted C before →
    e = .missingSign token.offset
  unexpectedToken : (∀ digits, token.lexeme = .literal digits →
    ¬ Accepted C before ∧ ∀ other, ¬ Viable C (before ++ [.literal other])) →
    e = .unexpectedToken token.offset (String.ofList token.lexeme.text)

variable {before ls ms : List Lexeme} {stage : Stage} {token : Token} {k : Nat}

private theorem numerals_append : Numerals (ls ++ ms) ↔ Numerals ls ∧ Numerals ms := by
  simp only [Numerals, List.mem_append, or_imp, forall_and]

theorem Numerals.take (h : Numerals ls) (n : Nat) : Numerals (ls.take n) :=
  fun digits hmem => h digits (List.mem_of_mem_take hmem)

theorem numerals_scan (text : String) : Numerals ((Token.scan text).map Token.lexeme) := by
  intro digits h
  obtain ⟨⟨l, offset⟩, hmem, hl⟩ := List.mem_map.1 h
  cases hl
  exact Token.isNumeral_of_mem_scanFrom hmem

theorem accepted_iff : Accepted C ls ↔
    Numerals ls ∧ ∃ last, Stage.run C .start ls = some last ∧ last.complete = true := by
  apply and_congr_right
  intro _
  -- Where the tokens stand does not matter, so they may all stand at the beginning.
  obtain ⟨tokens, rfl⟩ : ∃ tokens : List Token, tokens.map Token.lexeme = ls :=
    ⟨ls.map fun l => ⟨l, 0⟩, by rw [List.map_map]; exact List.map_id ls⟩
  rw [← Stage.errorFrom_eq_none_iff, ← SparsePoly.readTerms_strict_start]
  constructor
  · rintro ⟨ts, hne, hsigned, hreadable, hspell⟩
    obtain ⟨terms, hmeans⟩ := exists_forall₂_iff.2 fun t ht =>
      WrittenTerm.readable_iff.1 (hreadable t ht)
    rw [SparsePoly.readTerms_strict_eq_none_iff.2
      ⟨ts, SparsePoly.admitted_strict_true_iff.2 hsigned, hne, hspell, hmeans⟩]
  · intro hnone
    obtain ⟨ts, hadmitted, hne, hspell, hmeans⟩ :=
      SparsePoly.readTerms_strict_eq_none_iff.1 (Prod.ext rfl hnone)
    exact ⟨ts, hne, SparsePoly.admitted_strict_true_iff.1 hadmitted, fun t ht =>
      WrittenTerm.readable_iff.2 (exists_forall₂_iff.1 ⟨_, hmeans⟩ t ht), hspell⟩

theorem Viable.mono (h : Viable C ms) (hle : ls <+: ms) : Viable C ls := by
  obtain ⟨whole, haccepted, hwhole⟩ := h
  exact ⟨whole, haccepted, hle.trans hwhole⟩

private theorem exists_run_of_viable (h : Viable C ls) :
    ∃ stage, Stage.run C .start ls = some stage := by
  obtain ⟨ms, hms, behind, rfl⟩ := h
  obtain ⟨-, last, hrun, -⟩ := accepted_iff.1 hms
  rw [Stage.run_append] at hrun
  obtain ⟨stage, hstage, -⟩ := Option.bind_eq_some_iff.1 hrun
  exact ⟨stage, hstage⟩

namespace Stage

def completion : Stage → List Lexeme
  | start | sign _ | caret => [.literal ['0']]
  | star => [.x]
  | coefficient | x | exponent => []

private theorem takesLiteral_of_advance {digits : List Char} {next : Stage}
    (h : stage.advance C (.literal digits) = some next) : stage.takesLiteral = true := by
  cases stage with
  | start | sign | caret => rfl
  | _ => cases h

private theorem advance_ne_start (l : Lexeme) : stage.advance C l ≠ some start := by
  cases l with
  | literal digits => cases stage <;> simp [advance, behindLiteral]
  | _ => simp [advance]

private theorem ne_start_of_run {next : Stage} (hne : ls ≠ []) (h : run C stage ls = some next) :
    next ≠ start := by
  obtain ⟨init, l, rfl⟩ := (List.eq_nil_or_concat' ls).resolve_left hne
  rw [run_concat] at h
  obtain ⟨behind, -, hlast⟩ := Option.bind_eq_some_iff.1 h
  rintro rfl
  exact advance_ne_start l hlast

private theorem numerals_zero : Numerals [.literal ['0']] := by
  intro digits h
  cases List.mem_singleton.1 h
  exact ⟨List.cons_ne_nil _ _, List.forall_mem_singleton.2 rfl⟩

private theorem numerals_completion (stage : Stage) : Numerals stage.completion := by
  cases stage with
  | start | sign | caret => exact numerals_zero
  | star | coefficient | x | exponent => simp [Numerals, completion]

section Zero

-- A sign can be completed only if some literal behind it is in range; zero is, with either sign.
variable (hzero : (Coefficient.ofInt? 0 : Option C).isSome = true)

include hzero

private theorem exists_advance_zero (h : stage.takesLiteral = true) :
    ∃ last, stage.advance C (.literal ['0']) = some last ∧ last.complete = true := by
  obtain ⟨c, hc⟩ := Option.isSome_iff_exists.1 hzero
  have hcoefficient : ∀ negative, TermReader.coefficient? negative ['0'] = some c := by
    intro negative
    cases negative <;> exact hc
  cases stage with
  | start => exact ⟨coefficient, by rw [advance, behindLiteral, hcoefficient]; rfl, rfl⟩
  | sign => exact ⟨coefficient, by rw [advance, behindLiteral, hcoefficient]; rfl, rfl⟩
  | caret => exact ⟨exponent, rfl, rfl⟩
  | _ => cases h

private theorem exists_run_completion (stage : Stage) :
    ∃ last, run C stage stage.completion = some last ∧ last.complete = true := by
  cases stage with
  | start | sign | caret =>
    rw [completion, run_singleton]
    exact exists_advance_zero hzero rfl
  | star => exact ⟨x, rfl, rfl⟩
  | coefficient | x | exponent => exact ⟨_, rfl, rfl⟩

end Zero

end Stage

section Zero

variable (hzero : (Coefficient.ofInt? 0 : Option C).isSome = true)

include hzero

/-- What leads to a stage can be completed. -/
theorem viable_iff (hnumerals : Numerals ls) :
    Viable C ls ↔ ∃ stage, Stage.run C .start ls = some stage := by
  constructor
  · exact exists_run_of_viable
  · rintro ⟨stage, hrun⟩
    obtain ⟨last, hlast, hcomplete⟩ := stage.exists_run_completion hzero
    refine ⟨ls ++ stage.completion, accepted_iff.2 ⟨?_, last, ?_, hcomplete⟩,
      List.prefix_append _ _⟩
    · exact numerals_append.2 ⟨hnumerals, stage.numerals_completion⟩
    · rw [Stage.run_append, hrun, Option.bind_some, hlast]

/-- The first offense is at the lexeme that cannot follow the stage before it. -/
theorem firstOffense_iff (hnumerals : Numerals ls) : FirstOffense C ls k ↔
    ∃ stage l, ls[k]? = some l ∧ Stage.run C .start (ls.take k) = some stage ∧
      stage.advance C l = none := by
  have htake : ∀ hk : k < ls.length, ls.take (k + 1) = ls.take k ++ [ls[k]] := by
    intro hk
    rw [List.take_add_one, List.getElem?_eq_getElem hk, Option.toList_some]
  constructor
  · rintro ⟨hk, hoffends, hleast⟩
    obtain ⟨stage, hrun⟩ : ∃ stage, Stage.run C .start (ls.take k) = some stage := by
      cases k with
      | zero => exact ⟨.start, rfl⟩
      | succ n => exact exists_run_of_viable (hleast n n.lt_succ_self)
    refine ⟨stage, ls[k], List.getElem?_eq_getElem hk, hrun, ?_⟩
    rw [Option.eq_none_iff_forall_ne_some]
    intro next hadvance
    apply hoffends
    rw [viable_iff hzero (hnumerals.take _), htake hk, Stage.run_concat, hrun]
    exact ⟨next, hadvance⟩
  · rintro ⟨stage, l, hl, hrun, hadvance⟩
    obtain ⟨hk, rfl⟩ := List.getElem?_eq_some_iff.1 hl
    have hbefore : Viable C (ls.take k) := (viable_iff hzero (hnumerals.take k)).2 ⟨stage, hrun⟩
    refine ⟨hk, fun hviable => ?_, fun n hn => hbefore.mono (List.take_prefix_take_left hn)⟩
    obtain ⟨next, hnext⟩ := exists_run_of_viable hviable
    rw [htake hk, Stage.run_concat, hrun, Option.bind_some, hadvance] at hnext
    cases hnext

theorem viable_of_not_firstOffense (h : ∀ k, ¬ FirstOffense C ls k) : Viable C ls := by
  have hall : ∀ n, n < ls.length → Viable C (ls.take (n + 1)) := by
    intro n
    induction n using Nat.strongRecOn with
    | ind n ih =>
      intro hn
      by_contra hoffends
      exact h n ⟨hn, hoffends, fun m hm => ih m hm (hm.trans hn)⟩
  cases ls with
  | nil => exact (viable_iff hzero fun digits h => by cases h).2 ⟨.start, rfl⟩
  | cons l ls =>
    have hwhole : Viable C ((l :: ls).take (l :: ls).length) := hall _ (Nat.lt_succ_self _)
    rwa [List.take_length] at hwhole

theorem exists_viable_literal_iff (hnumerals : Numerals before)
    (hrun : Stage.run C .start before = some stage) :
    (∃ digits, Viable C (before ++ [.literal digits])) ↔ stage.takesLiteral = true := by
  constructor
  · rintro ⟨digits, h⟩
    obtain ⟨next, hnext⟩ := exists_run_of_viable h
    rw [Stage.run_concat, hrun] at hnext
    exact Stage.takesLiteral_of_advance hnext
  · intro htakes
    obtain ⟨last, hadvance, -⟩ := Stage.exists_advance_zero hzero htakes
    refine ⟨['0'], ?_⟩
    rw [viable_iff hzero (numerals_append.2 ⟨hnumerals, Stage.numerals_zero⟩), Stage.run_concat,
      hrun]
    exact ⟨last, hadvance⟩

private theorem blames_refusal (hnumerals : Numerals before)
    (hrun : Stage.run C .start before = some stage) :
    Blames C before token (stage.refusal token) := by
  have haccepted : Accepted C before ↔ stage.complete = true := by
    simp [accepted_iff, hnumerals, hrun]
  have hviable := exists_viable_literal_iff hzero hnumerals hrun
  constructor
  · intro digits other hl h
    rw [Stage.refusal, hl, hviable.1 ⟨other, h⟩]
    rfl
  · intro digits hl h
    have hcomplete := haccepted.1 h
    rw [Stage.refusal, hl, Stage.takesLiteral_of_complete hcomplete, hcomplete]
    rfl
  · intro h
    cases hl : token.lexeme with
    | literal digits =>
      obtain ⟨hincomplete, hnone⟩ := h digits hl
      rw [haccepted, Bool.not_eq_true] at hincomplete
      rw [← not_exists, hviable, Bool.not_eq_true] at hnone
      rw [Stage.refusal, hl, hincomplete, hnone]
      rfl
    | _ =>
      rw [Stage.refusal, hl]
      rfl

end Zero

namespace SparsePoly

theorem isSome_ofInt?_zero : (∀ w, (Coefficient.ofInt? 0 : Option (Signed w)).isSome = true) ∧
    (Coefficient.ofInt? 0 : Option Float).isSome = true ∧
    (Coefficient.ofInt? 0 : Option Float32).isSome = true := by
  refine ⟨fun w => ?_, rfl, rfl⟩
  exact Option.isSome_iff_exists.2 ⟨Coefficient.zero, Signed.ofInt?_eq_some_iff.2 rfl⟩

/-- An error of the strict mode is about the first token with which nothing that is accepted begins,
and about the end of the text if there is no such token.  Of the coefficients it is only asked that
zero is one of them. -/
theorem parseWith_strict_first_offense
    (hzero : (Coefficient.ofInt? 0 : Option C).isSome = true) {text : String} {e : ParseError}
    (h : parseWith (C := C) .strict text = .error (.reported e)) :
    (∀ k, FirstOffense C ((Token.scan text).map Token.lexeme) k →
      ∃ token, (Token.scan text)[k]? = some token ∧ token.StandsIn text ∧
        Blames C (((Token.scan text).map Token.lexeme).take k) token e) ∧
    ((∀ k, ¬ FirstOffense C ((Token.scan text).map Token.lexeme) k) →
      e = if Token.scan text = [] then .noTerms else .unexpectedEnd) := by
  have hnumerals := numerals_scan text
  have herror : Stage.errorFrom C .start (Token.scan text) = some e := by
    rw [← readTerms_strict_start, readTerms_of_parseWith_error h]
  constructor
  · intro k hk
    obtain ⟨stage, l, hl, hrun, hadvance⟩ := (firstOffense_iff hzero hnumerals).1 hk
    rw [List.getElem?_map] at hl
    obtain ⟨token, htoken, rfl⟩ := Option.map_eq_some_iff.1 hl
    obtain ⟨hlt, rfl⟩ := List.getElem?_eq_some_iff.1 htoken
    refine ⟨_, htoken, Token.standsIn_of_mem_scan (List.getElem_mem hlt), ?_⟩
    rw [← List.map_take] at hrun
    rw [← List.take_append_drop k (Token.scan text), List.drop_eq_getElem_cons hlt,
      Stage.errorFrom_append hrun, Stage.errorFrom_of_refused hadvance] at herror
    cases herror
    exact blames_refusal hzero (hnumerals.take k) (List.map_take ▸ hrun)
  · intro hnone
    obtain ⟨stage, hrun⟩ := exists_run_of_viable (viable_of_not_firstOffense hzero hnone)
    rw [← List.append_nil (Token.scan text), Stage.errorFrom_append hrun] at herror
    split
    · rename_i hempty
      rw [hempty] at hrun
      cases hrun
      cases herror
      rfl
    · rename_i hne
      have hstage : stage ≠ .start := Stage.ne_start_of_run (by simpa using hne) hrun
      rw [Stage.errorFrom, Stage.endError, if_neg hstage] at herror
      split at herror
      · cases herror
      · cases herror
        rfl

/-- A foreign letter behind a whole term, and a caret that nothing follows. -/
theorem parseWith_strict_first_offense_foreign_letter :
    (∃ token, (Token.scan "2 + 3y")[3]? = some token ∧ token.StandsIn "2 + 3y" ∧
      Blames (Signed 64) [.literal ['2'], .plus, .literal ['3']] token
        (.unexpectedToken 5 "y")) ∧
    (∀ k, ¬ FirstOffense (Signed 64) ((Token.scan "3x^").map Token.lexeme) k) ∧
    parseWith (C := Signed 64) .strict "3x^" = .error (.reported .unexpectedEnd) := by
  have hzero : (Coefficient.ofInt? 0 : Option (Signed 64)).isSome = true := isSome_ofInt?_zero.1 64
  constructor
  · have hparse : parseWith (C := Signed 64) .strict "2 + 3y" =
        .error (.reported (.unexpectedToken 5 "y")) := by decide +kernel
    have hlexemes : (Token.scan "2 + 3y").map Token.lexeme =
        [.literal ['2'], .plus, .literal ['3'], .other 'y'] := by decide +kernel
    have hfirst : FirstOffense (Signed 64) ((Token.scan "2 + 3y").map Token.lexeme) 3 := by
      rw [firstOffense_iff hzero (numerals_scan _), hlexemes]
      exact ⟨.coefficient, .other 'y', rfl, by decide +kernel, rfl⟩
    have hblames := (parseWith_strict_first_offense hzero hparse).1 3 hfirst
    rwa [hlexemes] at hblames
  · have hlexemes : (Token.scan "3x^").map Token.lexeme = [.literal ['3'], .x, .caret] := by
      decide +kernel
    have hviable : Viable (Signed 64) ((Token.scan "3x^").map Token.lexeme) := by
      rw [viable_iff hzero (numerals_scan _), hlexemes]
      exact ⟨.caret, by decide +kernel⟩
    have hnone : ∀ k, ¬ FirstOffense (Signed 64) ((Token.scan "3x^").map Token.lexeme) k :=
      fun k hk => hk.offends (hviable.mono (List.take_prefix _ _))
    obtain ⟨e, hparse⟩ : ∃ e, parseWith (C := Signed 64) .strict "3x^" = .error (.reported e) :=
      ⟨.unexpectedEnd, by decide +kernel⟩
    have hend : e = .unexpectedEnd := (parseWith_strict_first_offense hzero hparse).2 hnone
    exact ⟨hnone, hend ▸ hparse⟩

end SparsePoly

end Univariate
