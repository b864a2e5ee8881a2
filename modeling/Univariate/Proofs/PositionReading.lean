import Mathlib.Data.List.DropRight
import Univariate.Proofs.CanonicalForm
import Univariate.Proofs.LosslessScanning
import Univariate.Proofs.ModeExtension
import Univariate.Proofs.TextParts
import Univariate.Proofs.WordMagnitudes

/-! # Reading by positions

The terms of a text can be read and summed in one loop over the positions of its tokens.  An
iteration adds the term that it reads, or it passes over the fragment from the refused term to the
next sign, which it cuts out of the text.  The loop could be stopped for good at a position without
a token, at a part of the text that does not exist, at the negation of a magnitude and at a sum of
coefficients; only the last ever happens.  Every iteration goes forward and not beyond the last
token, so there are at most as many iterations as tokens, and the loop gives what the reader of the
whole text gives. -/

namespace Univariate

inductive Halt
  | reported (error : ParseError)
  | trapped (trap : Trap)
  deriving DecidableEq, Repr

/-- A fault of the reader of the whole text is one of its sum. -/
def Halt.ofFailure : Failure ParseError → Halt
  | .reported e => reported e
  | .stopped f => trapped (.addition f)

namespace SparsePoly

variable {C : Type} [Coefficient C] {p : SparsePoly C} {t : Term C} {f : Fault}

/-- A sum of terms is stopped at one of them, and those before it have been summed. -/
def StoppedAt (ts : List (Term C)) (f : Fault) : Prop :=
  ∃ before t after p, ts = before ++ t :: after ∧ ofTerms before = .ok p ∧ p.AdditionFault t f

theorem stoppedAt_of_ofTerms {ts : List (Term C)} (h : ofTerms ts = .error f) :
    StoppedAt ts f := by
  obtain ⟨before, t, after, p, hts, hbefore, hadd⟩ := foldlM_eq_error h
  exact ⟨before, t, after, p, hts, hbefore, additionFault_of_addTerm hadd⟩

def finish (sum : SparsePoly C) (read : List (Term C) × Option ParseError) :
    Except (Failure ParseError) (SparsePoly C) := do
  let p ← attempt (sum.addTerms read.1)
  match read.2 with
  | none => return p
  | some e => throw (.reported e)

theorem parseWith_eq_finish (mode : ParseMode) (text : String) :
    parseWith (C := C) mode text = finish zero (readTerms mode true (Token.scan text)) := rfl

private theorem finish_cons {sum sum' : SparsePoly C} {ts : List (Term C)} {e : Option ParseError}
    (h : sum.addTerm t = .ok sum') : finish sum (t :: ts, e) = finish sum' (ts, e) := by
  rw [finish, finish, addTerms, addTerms, List.foldlM_cons, h, ok_bind]

private theorem finish_cons_of_error {sum : SparsePoly C} {ts : List (Term C)}
    {e : Option ParseError}
    (h : sum.addTerm t = .error f) : finish sum (t :: ts, e) = .error (.stopped f) := by
  rw [finish, addTerms, List.foldlM_cons, h, error_bind, attempt_error, error_bind]

end SparsePoly

/-- What is told about a fragment that is passed over: the byte at which it begins, its characters
without the blanks at the end, and why it is no term. -/
structure Skipped where
  offset : Nat
  fragment : String
  error : ParseError
  deriving DecidableEq, Repr

def trimEnd (text : String) : String := String.ofList (text.toList.rdropWhile isBlank)

/-- Passes over the fragment from a position on, where the term at this position was left off at
another position. -/
def skipFragment (text : String) (start stopped : Nat) (error : ParseError) :
    Except Trap (Skipped × Nat) := do
  let tokens := Token.scan text
  let next := signFrom tokens (max stopped (start + 1))
  let t ← tokenAt tokens start
  let part ← slice text t.offset (offsetAt text next)
  return (⟨t.offset, trimEnd part, error⟩, next)

/-- The loop between two iterations. -/
structure Reading (C : Type) where
  position : Nat
  /-- The number of terms that have been read. -/
  recognised : Nat
  sum : SparsePoly C
  deriving DecidableEq

inductive Advance (C : Type)
  | term (t : Term C)
  | fragment (skipped : Skipped)
  deriving DecidableEq

namespace Reading

variable {C : Type} [Coefficient C]

def start : Reading C := ⟨0, 0, .zero⟩

def readNext (mode : ParseMode) (text : String) (s : Reading C) :
    Except Refusal (Term C × List Token) :=
  TermReader.readTerm (mode.signRequired (s.recognised == 0)) ((Token.scan text).drop s.position)

def step (mode : ParseMode) (text : String) (s : Reading C) :
    Except Halt (Advance C × Reading C) :=
  let tokens := Token.scan text
  match TermReader.readTermByWord (mode.signRequired (s.recognised == 0))
      (tokens.drop s.position) with
  | .ok (t, rest) => do
    let sum ← (s.sum.addTerm t).mapError fun f => .trapped (.addition f)
    return (.term t, ⟨positionOf tokens rest, s.recognised + 1, sum⟩)
  | .error (.stopped f) => .error (.trapped (.negation f))
  | .error (.reported refusal) =>
    match mode with
    | .strict => .error (.reported refusal.error)
    | .permissive => do
      let (skipped, next) ← (skipFragment text s.position (positionOf tokens refusal.rest)
        refusal.error).mapError .trapped
      return (.fragment skipped, { s with position := next })

/-- At most `n` iterations, as long as there are tokens. -/
def run (mode : ParseMode) (text : String) : Nat → Reading C → Except Halt (Reading C)
  | 0, s => .ok s
  | n + 1, s =>
    if s.position < (Token.scan text).length then do
      let (_, s) ← s.step mode text
      s.run mode text n
    else .ok s

def conclude (mode : ParseMode) (s : Reading C) : Except Halt (SparsePoly C) :=
  match mode.endError? (s.recognised == 0) with
  | none => .ok s.sum
  | some e => .error (.reported e)

variable {mode : ParseMode} {text : String} {s : Reading C} {t : Term C} {rest : List Token}
  {refusal : Refusal}

private theorem step_of_ok (h : s.readNext mode text = .ok (t, rest)) : s.step mode text = (do
    let sum ← (s.sum.addTerm t).mapError fun f => .trapped (.addition f)
    return (.term t, ⟨positionOf (Token.scan text) rest, s.recognised + 1, sum⟩)) := by
  rw [step, (TermReader.readTermByWord_of_ok h).1]

private theorem step_strict_of_error (h : s.readNext .strict text = .error refusal) :
    s.step .strict text = .error (.reported refusal.error) := by
  obtain ⟨refusal', hread, herror, -⟩ := TermReader.readTermByWord_of_error h
  rw [step, hread]
  dsimp only
  rw [herror]

/-- A fragment that is passed over: it is a part of the text from its first token on, and a sign
or the end follows. -/
structure Skips (text : String) (start : Nat) (skipped : Skipped) (next : Nat) : Prop where
  lt : start < next
  le : next ≤ (Token.scan text).length
  isSign : ∀ t, (Token.scan text)[next]? = some t → t.lexeme.isSign = true
  offset : (Token.scan text)[start]?.map Token.offset = some skipped.offset
  fragment : ∃ part, PartOf text skipped.offset (offsetAt text next) part ∧
    skipped.fragment = trimEnd part

/-- No fragment stops the loop, wherever its term was left off. -/
theorem skipFragment_skips {start stopped : Nat} (hstart : start < (Token.scan text).length)
    (hstopped : stopped ≤ (Token.scan text).length) (error : ParseError) : ∃ skipped,
      skipFragment text start stopped error =
        .ok (skipped, signFrom (Token.scan text) (max stopped (start + 1))) ∧
      skipped.error = error ∧
      Skips text start skipped (signFrom (Token.scan text) (max stopped (start + 1))) := by
  have hlt : start < signFrom (Token.scan text) (max stopped (start + 1)) :=
    Nat.lt_of_lt_of_le (Nat.le_max_right stopped (start + 1)) (le_signFrom ..)
  have htoken : (Token.scan text)[start]? = some (Token.scan text)[start] :=
    List.getElem?_eq_getElem hstart
  obtain ⟨part, hpart⟩ := exists_partOf
    (Token.standsIn_of_mem_scan (List.mem_of_getElem? htoken)).cutAt (cutAt_offsetAt text _)
    (offset_le_offsetAt htoken hlt)
  refine ⟨⟨(Token.scan text)[start].offset, trimEnd part, error⟩, ?_, rfl, hlt,
    signFrom_le (Nat.max_le.2 ⟨hstopped, hstart⟩), fun t => isSign_of_signFrom, ?_, part, hpart,
    rfl⟩
  · rw [skipFragment, tokenAt, htoken, ok_bind, hpart.slice_eq, ok_bind]
    rfl
  · rw [htoken, Option.map_some]

/-- From a refused term the loop goes on where the reader of the whole text does. -/
theorem step_permissive_of_error (hposition : s.position < (Token.scan text).length)
    (h : s.readNext .permissive text = .error refusal) : ∃ skipped next,
      s.step .permissive text = .ok (.fragment skipped, { s with position := next }) ∧
        skipped.error = refusal.error ∧ Skips text s.position skipped next ∧
        (Token.scan text).drop next = refusal.resume := by
  obtain ⟨refusal', hread, herror, hresume, hrest⟩ := TermReader.readTermByWord_of_error h
  have hdrop := drop_positionOf (hrest.trans (List.drop_suffix ..))
  obtain ⟨skipped, hskip, herror', hskips⟩ := skipFragment_skips hposition
    (positionOf_le (Token.scan text) refusal'.rest) refusal'.error
  refine ⟨skipped, _, ?_, herror'.trans herror, hskips, ?_⟩
  · rw [step, hread]
    dsimp only
    rw [hskip]
    rfl
  · rw [drop_signFrom]
    -- The reader has left off behind the first token of the term, or at it.
    rcases Nat.le_total (s.position + 1) (positionOf (Token.scan text) refusal'.rest) with hle | hle
    · rw [Nat.max_eq_left hle, hdrop]
      exact hresume
    · rw [Nat.max_eq_right hle]
      rw [readNext, List.drop_eq_getElem_cons hposition] at h
      exact (TermReader.resume_of_readTerm_error h).symm

structure Advances (text : String) (s : Reading C) (done : Advance C) (s' : Reading C) : Prop where
  lt : s.position < s'.position
  le : s'.position ≤ (Token.scan text).length
  term : ∀ t, done = .term t → s'.recognised = s.recognised + 1 ∧ s.sum.addTerm t = .ok s'.sum
  fragment : ∀ skipped, done = .fragment skipped →
    s'.recognised = s.recognised ∧ s'.sum = s.sum ∧ Skips text s.position skipped s'.position

/-- How an iteration ends the loop: only the strict mode reports an error, and only a sum of
coefficients is stopped. -/
def Stops (mode : ParseMode) (text : String) (s : Reading C) : Halt → Prop
  | .reported e => mode = .strict ∧ ∃ refusal, s.readNext mode text = .error refusal ∧
      refusal.error = e
  | .trapped trap => ∃ t rest f, s.readNext mode text = .ok (t, rest) ∧ trap = .addition f ∧
      s.sum.AdditionFault t f

theorem step_ends (mode : ParseMode) (hposition : s.position < (Token.scan text).length) :
    Ends (fun r => s.Advances text r.1 r.2) (s.Stops mode text) (s.step mode text) := by
  cases hread : s.readNext mode text with
  | ok result =>
    obtain ⟨t, rest⟩ := result
    rw [step_of_ok hread]
    cases hsum : s.sum.addTerm t with
    | ok sum =>
      constructor
      · exact lt_positionOf hposition (TermReader.length_lt_of_readTerm hread)
      · exact positionOf_le ..
      · rintro u ⟨⟩
        exact ⟨rfl, hsum⟩
      · nofun
    | error f => exact ⟨t, rest, f, hread, rfl, SparsePoly.additionFault_of_addTerm hsum⟩
  | error refusal =>
    cases mode with
    | strict =>
      rw [step_strict_of_error hread]
      exact ⟨rfl, refusal, hread, rfl⟩
    | permissive =>
      obtain ⟨skipped, next, hstep, -, hskips, -⟩ := step_permissive_of_error hposition hread
      rw [hstep]
      constructor
      · exact hskips.lt
      · exact hskips.le
      · nofun
      · rintro other ⟨⟩
        exact ⟨rfl, rfl, hskips⟩

private theorem run_of_lt {n : Nat} (h : s.position < (Token.scan text).length) :
    s.run mode text (n + 1) = s.step mode text >>= fun r => r.2.run mode text n := by
  rw [run, if_pos h]

private theorem run_of_not_lt {n : Nat} (h : ¬ s.position < (Token.scan text).length) :
    s.run mode text n = .ok s := by
  cases n with
  | zero => rfl
  | succ n => rw [run, if_neg h]

private theorem Advances.recognised_le {done : Advance C} {s' : Reading C}
    (h : s.Advances text done s')
    (hs : s.recognised ≤ s.position) : s'.recognised ≤ s'.position := by
  have hlt := h.lt
  cases done with
  | term t =>
    rw [(h.term t rfl).1]
    omega
  | fragment skipped =>
    rw [(h.fragment skipped rfl).1]
    omega

theorem run_ends {n : Nat} (mode : ParseMode) (hcount : s.recognised ≤ s.position)
    (hle : s.position ≤ (Token.scan text).length)
    (hn : (Token.scan text).length - s.position ≤ n) :
    Ends (fun last => last.position = (Token.scan text).length ∧ last.recognised ≤ last.position)
      (fun halt => ∃ last : Reading C, last.position < (Token.scan text).length ∧
        last.Stops mode text halt) (s.run mode text n) := by
  induction n generalizing s with
  | zero => exact ⟨Nat.le_antisymm hle (Nat.le_of_sub_eq_zero (Nat.le_zero.1 hn)), hcount⟩
  | succ n ih =>
    by_cases hlt : s.position < (Token.scan text).length
    · have hstep := ends_iff.1 (step_ends mode hlt)
      rw [run_of_lt hlt]
      refine Ends.bind (ends_iff.2 ⟨hstep.1, fun halt h => ⟨s, hlt, hstep.2 halt h⟩⟩) ?_
      intro r hr
      have hadvance := hr.lt
      exact ih (hr.recognised_le hcount) hr.le (by omega)
    · rw [run_of_not_lt hlt]
      exact ⟨Nat.le_antisymm hle (Nat.not_lt.1 hlt), hcount⟩

private theorem run_conclude_of_not_lt {n : Nat} (h : ¬ s.position < (Token.scan text).length) :
    (s.run mode text n >>= conclude mode) =
      (SparsePoly.finish s.sum (SparsePoly.readTerms mode (s.recognised == 0)
        ((Token.scan text).drop s.position))).mapError Halt.ofFailure := by
  rw [run_of_not_lt h, ok_bind, List.drop_eq_nil_of_le (Nat.not_lt.1 h), SparsePoly.readTerms_nil,
    conclude]
  cases mode.endError? (s.recognised == 0) <;> rfl

/-- The loop gives what the reader of the whole text gives. -/
theorem run_conclude {n : Nat} (hn : (Token.scan text).length - s.position ≤ n) :
    (s.run mode text n >>= conclude mode) =
      (SparsePoly.finish s.sum (SparsePoly.readTerms mode (s.recognised == 0)
        ((Token.scan text).drop s.position))).mapError Halt.ofFailure := by
  induction n generalizing s with
  | zero => exact run_conclude_of_not_lt (by omega)
  | succ n ih =>
    by_cases hlt : s.position < (Token.scan text).length
    swap
    · exact run_conclude_of_not_lt hlt
    rw [run_of_lt hlt]
    have htokens := List.drop_eq_getElem_cons hlt
    cases hread : s.readNext mode text with
    | ok result =>
      obtain ⟨t, rest⟩ := result
      have hrest := (TermReader.readTermByWord_of_ok hread).2.trans (List.drop_suffix ..)
      have hadvance := lt_positionOf hlt (TermReader.length_lt_of_readTerm hread)
      rw [step_of_ok hread]
      rw [readNext, htokens] at hread
      rw [htokens, SparsePoly.readTerms_cons_of_ok hread]
      cases hsum : s.sum.addTerm t with
      | ok sum =>
        rw [SparsePoly.finish_cons hsum]
        refine (ih (s := ⟨_, s.recognised + 1, sum⟩) ?_).trans ?_
        · dsimp only
          omega
        · dsimp only
          rw [drop_positionOf hrest]
          rfl
      | error f =>
        rw [SparsePoly.finish_cons_of_error hsum]
        rfl
    | error refusal =>
      cases mode with
      | strict =>
        rw [step_strict_of_error hread]
        rw [readNext, htokens] at hread
        rw [htokens, SparsePoly.readTerms_strict_of_error hread]
        rfl
      | permissive =>
        obtain ⟨skipped, next, hstep, -, hskips, hresume⟩ := step_permissive_of_error hlt hread
        have hadvance := hskips.lt
        rw [readNext, htokens] at hread
        rw [hstep, ok_bind, htokens, SparsePoly.readTerms_permissive_of_error hread, ← hresume]
        exact ih (s := { s with position := next }) (by dsimp only; omega)

end Reading

/-- The loop over the tokens of a text goes forward, ends, and is stopped by nothing but a sum of
coefficients. -/
structure SafeReading (C : Type) [Coefficient C] (mode : ParseMode) (text : String) : Prop where
  /-- An iteration goes forward and not beyond the last token, up to a sign or the end if it passes
  over a fragment, or it ends the loop with an error of the strict mode or at a sum. -/
  step : ∀ s : Reading C, s.position < (Token.scan text).length →
    Ends (fun r => s.Advances text r.1 r.2) (s.Stops mode text) (s.step mode text)
  /-- There are at most as many iterations as tokens. -/
  run : Ends
    (fun s : Reading C => s.position = (Token.scan text).length ∧ s.recognised ≤ s.position)
    (fun halt => ∃ s : Reading C, s.position < (Token.scan text).length ∧ s.Stops mode text halt)
    (Reading.start.run mode text (Token.scan text).length)
  /-- The loop is the reader of the whole text. -/
  same : (Reading.start.run mode text (Token.scan text).length >>= Reading.conclude mode) =
    (SparsePoly.parseWith (C := C) mode text).mapError Halt.ofFailure
  /-- The scanner can cut its tokens out of the text. -/
  lexeme : ∀ t ∈ Token.scan text, slice text t.offset t.stop = .ok (String.ofList t.lexeme.text)
  /-- Whatever is read, only the sum of the terms is ever stopped. -/
  stopped : ∀ f, SparsePoly.parseWith (C := C) mode text = .error (.stopped f) →
    SparsePoly.StoppedAt (SparsePoly.readTerms (C := C) mode true (Token.scan text)).1 f
  stopped_parse : ∀ f, SparsePoly.parse (C := C) text = .error f →
    SparsePoly.StoppedAt (SparsePoly.readTerms (C := C) .permissive true (Token.scan text)).1 f

/-- Every text is read safely, in both modes and for all coefficients. -/
theorem safe_reading {C : Type} [Coefficient C] (mode : ParseMode) (text : String) :
    SafeReading C mode text := by
  constructor
  · exact fun s hs => s.step_ends mode hs
  · exact Reading.run_ends mode (Nat.le_refl _) (Nat.zero_le _) (Nat.le_refl _)
  · rw [SparsePoly.parseWith_eq_finish]
    exact Reading.run_conclude (Nat.le_refl _)
  · intro t ht
    obtain ⟨before, behind, htext, hoffset⟩ := Token.standsIn_of_mem_scan ht
    exact PartOf.slice_eq ⟨before, behind, htext, hoffset, by rw [Token.stop, hoffset]⟩
  · exact fun f h => SparsePoly.stoppedAt_of_ofTerms (SparsePoly.parseWith_eq_stopped_iff.1 h)
  · exact fun f h => SparsePoly.stoppedAt_of_ofTerms h

/-- The letter takes two bytes and the blank behind it three.  The sign is the third token. -/
example : (Reading.start (C := Signed 64)).step .permissive "2é\u3000+ 3x" =
    .ok (.fragment ⟨0, "2é", .unexpectedToken 1 "é"⟩, ⟨2, 0, .zero⟩) := by decide +kernel

end Univariate
