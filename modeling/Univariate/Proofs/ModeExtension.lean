import Univariate.Proofs.StrictLanguage

/-! # The permissive mode extends the strict one

A term that is read where a sign is required is read where none is required.  So the permissive mode
begins with the terms of the strict mode, and it adds others only behind the first error.  Sums that
are stopped by the terms of the strict mode are stopped before any of the others is added. -/

namespace Univariate

theorem TermReader.readTerm_of_required {C : Type} [Coefficient C] {required : Bool}
    {tokens rest : List Token} {term : Term C}
    (h : readTerm required tokens = .ok (term, rest)) :
    readTerm false tokens = .ok (term, rest) := by
  obtain ⟨hend, t, -, hspell, hmeans⟩ := readTerm_eq_ok_iff.1 h
  exact readTerm_eq_ok_iff.2 ⟨hend, t, fun h => absurd h Bool.false_ne_true, hspell, hmeans⟩

namespace SparsePoly

variable {C : Type} [Coefficient C] {p : SparsePoly C} {text : String}

theorem readTerms_permissive_snd (first : Bool) (tokens : List Token) :
    (readTerms (C := C) .permissive first tokens).2 = none := by
  induction hn : tokens.length using Nat.strongRecOn generalizing first tokens with
  | ind n ih =>
    cases tokens with
    | nil =>
      rw [readTerms_nil]
      cases first <;> rfl
    | cons token rest =>
      cases hread : TermReader.readTerm (C := C) false (token :: rest) with
      | ok result =>
        rw [readTerms_permissive_of_ok hread]
        exact ih _ (hn ▸ TermReader.length_lt_of_readTerm hread) _ _ rfl
      | error refusal =>
        rw [readTerms_permissive_of_error hread]
        exact ih _ (hn ▸ TermReader.length_resume_lt hread) _ _ rfl

/-- The modes read the same terms up to the error that ends the strict one. -/
theorem readTerms_permissive_extends (first : Bool) (tokens : List Token) : ∃ more,
    (readTerms (C := C) .permissive first tokens).1 =
      (readTerms .strict first tokens).1 ++ more ∧
    ((readTerms (C := C) .strict first tokens).2 = none → more = []) := by
  induction hn : tokens.length using Nat.strongRecOn generalizing first tokens with
  | ind n ih =>
    cases tokens with
    | nil =>
      rw [readTerms_nil, readTerms_nil]
      exact ⟨[], rfl, fun _ => rfl⟩
    | cons token rest =>
      cases hread : TermReader.readTerm (C := C) (ParseMode.strict.signRequired first)
          (token :: rest) with
      | ok result =>
        obtain ⟨term, behind⟩ := result
        obtain ⟨more, hmore, hend⟩ :=
          ih _ (hn ▸ TermReader.length_lt_of_readTerm hread) false behind rfl
        rw [readTerms_cons_of_ok hread,
          readTerms_permissive_of_ok (TermReader.readTerm_of_required hread)]
        exact ⟨more, congrArg (term :: ·) hmore, hend⟩
      | error refusal =>
        rw [readTerms_strict_of_error hread]
        exact ⟨_, (List.nil_append _).symm, fun h => nomatch h⟩

private theorem ofTerms_append_of_error {ts : List (Term C)} {f : Fault} (h : ofTerms ts = .error f)
    (more : List (Term C)) : ofTerms (ts ++ more) = .error f := by
  rw [ofTerms, addTerms] at h
  rw [ofTerms, addTerms, List.foldlM_append, h, error_bind]

theorem parseWith_permissive (text : String) :
    parseWith (C := C) .permissive text = attempt (parse text) :=
  parseWith_of_readTerms (Prod.ext rfl (readTerms_permissive_snd true _))

theorem parse_of_parseWith_strict (h : parseWith .strict text = .ok p) : parse text = .ok p := by
  obtain ⟨terms, hread, hsum⟩ := readTerms_of_parseWith h
  obtain ⟨more, hmore, hend⟩ := readTerms_permissive_extends (C := C) true (Token.scan text)
  rw [hread] at hmore hend
  rw [parse, hmore, hend rfl, List.append_nil, hsum]

theorem parse_of_parseWith_strict_stopped {f : Fault}
    (h : parseWith (C := C) .strict text = .error (.stopped f)) :
    parse (C := C) text = .error f := by
  obtain ⟨more, hmore, -⟩ := readTerms_permissive_extends (C := C) true (Token.scan text)
  rw [parse, hmore]
  exact ofTerms_append_of_error (parseWith_eq_stopped_iff.1 h) more

/-- The permissive mode reports no error.  What the strict mode returns the permissive mode returns,
and what stops the strict mode stops it too. -/
theorem permissive_extends_strict (text : String) :
    (∀ e, parseWith (C := C) .permissive text ≠ .error (.reported e)) ∧
    (∀ p : SparsePoly C, parseWith .strict text = .ok p →
      parseWith .permissive text = .ok p ∧ parse text = .ok p) ∧
    ∀ f, parseWith (C := C) .strict text = .error (.stopped f) →
      parseWith (C := C) .permissive text = .error (.stopped f) ∧
        parse (C := C) text = .error f := by
  rw [parseWith_permissive]
  refine ⟨fun e => attempt_ne_reported, fun p h => ?_, fun f h => ?_⟩
  · have hparse : parse text = .ok p := parse_of_parseWith_strict h
    exact ⟨attempt_eq_ok_iff.2 hparse, hparse⟩
  · have hparse : parse (C := C) text = .error f := parse_of_parseWith_strict_stopped h
    exact ⟨attempt_eq_stopped_iff.2 hparse, hparse⟩

/-- In the second text the sum is stopped in front of the letter that the strict mode refuses. -/
theorem permissive_extends_strict_short_texts :
    (∃ p : SparsePoly (Signed 32), p.size = 2 ∧ parseWith .strict "3x^2 - 07" = .ok p ∧
      parseWith .permissive "3x^2 - 07" = .ok p ∧ parse "3x^2 - 07" = .ok p) ∧
    parseWith (C := Signed 32) .strict "2147483647 + 1 + y" =
      .error (.stopped (.arithmetic .add)) ∧
    parse (C := Signed 32) "2147483647 + 1 + y" = .error (.arithmetic .add) := by
  have hok : parseWith (C := Signed 32) .strict "3x^2 - 07" =
      .ok ⟨[⟨0, ⟨-7, by decide⟩⟩, ⟨2, ⟨3, by decide⟩⟩]⟩ := by decide +kernel
  have hstopped : parseWith (C := Signed 32) .strict "2147483647 + 1 + y" =
      .error (.stopped (.arithmetic .add)) := by decide +kernel
  obtain ⟨hpermissive, hparse⟩ := (permissive_extends_strict "3x^2 - 07").2.1 _ hok
  exact ⟨⟨_, rfl, hok, hpermissive, hparse⟩, hstopped,
    ((permissive_extends_strict "2147483647 + 1 + y").2.2 _ hstopped).2⟩

end SparsePoly

end Univariate
