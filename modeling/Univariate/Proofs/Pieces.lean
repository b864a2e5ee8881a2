import Mathlib.Data.List.SplitBy
import Mathlib.Data.List.TakeWhile
import Univariate.Proofs.Scanning
import Univariate.Proofs.StrictLanguage

/-! # Permissive reading piece by piece

The tokens are cut in front of every sign.  Each piece contributes the terms that can be read from
its beginning, up to the first place where none can be read; the rest of the piece contributes
nothing, and no piece has an effect on another.  A text may therefore be cut in front of a sign and
the polynomials of its parts be added. -/

namespace Univariate

variable {w : Nat}

/-- The lexemes of a text, cut in front of every sign. -/
def pieces (ls : List Lexeme) : List (List Lexeme) := ls.splitBy fun _ l => !l.isSign

/-- A term whose literals are in range stands in front of the rest of a piece, and another literal
or the end of the piece follows it. -/
structure Stands (w : Nat) (t : WrittenTerm) (piece rest : List Lexeme) : Prop where
  front : piece = t.lexemes ++ rest
  inRange : t.InRange w
  followed : ∀ l ∈ rest.head?, l.isLiteral = true

/-- The terms that a piece contributes.  Behind its first lexeme a piece has no sign, so only the
first of the terms can be negative. -/
inductive Contributes (w : Nat) : List Lexeme → List WrittenTerm → Prop
  | read {t : WrittenTerm} {piece rest : List Lexeme} {ts : List WrittenTerm}
      (stands : Stands w t piece rest) (others : Contributes w rest ts) :
      Contributes w piece (t :: ts)
  | stop {piece : List Lexeme} (none : ∀ t rest, ¬ Stands w t piece rest) : Contributes w piece []

private theorem pieces_cons (l : Lexeme) (ls : List Lexeme) :
    pieces (l :: ls) = (l :: ls.takeWhile (!·.isSign)) :: pieces (ls.dropWhile (!·.isSign)) := by
  have hfree : ∀ m ∈ ls.takeWhile (!·.isSign), (!m.isSign) = true := fun m hm =>
    List.mem_takeWhile_imp (p := fun m : Lexeme => !m.isSign) hm
  have hpiece : (l :: ls.takeWhile (!·.isSign)).IsChain fun _ m => (!m.isSign) = true := by
    apply List.Pairwise.isChain
    exact List.pairwise_cons.2 ⟨hfree, List.pairwise_of_forall_mem_list fun _ _ m hm => hfree m hm⟩
  have hcut : ∀ m ∈ (ls.dropWhile (!·.isSign)).head?, (!m.isSign) = false := by
    intro m hm
    have hhead := List.head?_dropWhile_not (fun m : Lexeme => !m.isSign) ls
    rw [Option.mem_def.1 hm] at hhead
    exact hhead
  calc pieces (l :: ls)
      = pieces ((l :: ls.takeWhile (!·.isSign)) ++ ls.dropWhile (!·.isSign)) := by
        rw [List.cons_append, List.takeWhile_append_dropWhile]
    _ = pieces (l :: ls.takeWhile (!·.isSign)) ++ pieces (ls.dropWhile (!·.isSign)) :=
        List.splitBy_append fun _ _ m hm => hcut m hm
    _ = _ := by
        rw [pieces, List.splitBy_of_isChain (List.cons_ne_nil _ _) hpiece]
        rfl

theorem pieces_append {ls ms : List Lexeme} (h : ∀ m ∈ ms.head?, m.isSign = true) :
    pieces (ls ++ ms) = pieces ls ++ pieces ms :=
  List.splitBy_append fun _ _ m hm => by rw [h m hm]; rfl

theorem WrittenTerm.lexemes_ne_nil (t : WrittenTerm) : t.lexemes ≠ [] := by
  simp [lexemes]

theorem WrittenTerm.ne_nil_of_map_lexeme (t : WrittenTerm) {front : List Token}
    (h : front.map Token.lexeme = t.lexemes) : front ≠ [] := by
  rintro rfl
  exact t.lexemes_ne_nil h.symm

theorem WrittenTerm.all_not_isSign_tail (t : WrittenTerm) :
    t.lexemes.tail.all (!·.isSign) = true := by
  obtain ⟨sign, digits, power⟩ := t
  rcases sign with - | (- | -)
  all_goals rcases power with - | ⟨- | -, - | exponent⟩
  all_goals rfl

theorem exists_contributes (w : Nat) (piece : List Lexeme) : ∃ ts, Contributes w piece ts := by
  induction hn : piece.length using Nat.strongRecOn generalizing piece with
  | ind n ih =>
    by_cases h : ∃ t rest, Stands w t piece rest
    · obtain ⟨t, rest, hstands⟩ := h
      have hpos : 0 < t.lexemes.length := List.length_pos_of_ne_nil t.lexemes_ne_nil
      have hlt : rest.length < n := by
        rw [← hn, hstands.front, List.length_append]
        omega
      obtain ⟨ts, hts⟩ := ih _ hlt rest rfl
      exact ⟨t :: ts, .read hstands hts⟩
    · push Not at h
      exact ⟨[], .stop h⟩

section Reading

variable {used rest mid : List Token} {t : WrittenTerm} {term : Term (Signed w)}

/-- A term that begins in a piece ends in it. -/
private theorem exists_spelled_of_spelled_append (hne : used ≠ [])
    (hrest : ∀ s ∈ rest.head?, s.lexeme.isSign = true) (h : Spelled t.lexemes (used ++ rest) mid) :
    ∃ behind, Spelled t.lexemes used behind ∧ mid = behind ++ rest := by
  obtain ⟨front, heq, hfront⟩ := h
  rcases List.append_eq_append_iff.1 heq with ⟨more, rfl, rfl⟩ | ⟨behind, rfl, rfl⟩
  · cases more with
    | nil =>
      rw [List.append_nil] at hfront
      exact ⟨[], ⟨used, (List.append_nil used).symm, hfront⟩, rfl⟩
    | cons s more =>
      -- The next piece begins with a sign, which no term has behind its first lexeme.
      obtain ⟨u, used, rfl⟩ := List.exists_cons_of_ne_nil hne
      have htail : s.lexeme ∈ t.lexemes.tail := by simp [← hfront]
      have hsign : s.lexeme.isSign = true := hrest s rfl
      have hfree := List.all_eq_true.1 t.all_not_isSign_tail s.lexeme htail
      rw [hsign] at hfree
      cases hfree
  · exact ⟨behind, ⟨front, rfl, hfront⟩, rfl⟩

private theorem endsTerm_append_iff {behind : List Token}
    (hfree : ∀ s ∈ behind.head?, s.lexeme.isSign = false)
    (hrest : ∀ s ∈ rest.head?, s.lexeme.isSign = true) :
    TermReader.endsTerm (behind ++ rest) = true ↔
      ∀ l ∈ (behind.map Token.lexeme).head?, l.isLiteral = true := by
  cases behind with
  | nil =>
    cases rest with
    | nil => simp [TermReader.endsTerm]
    | cons s rest => simp [TermReader.endsTerm_cons, hrest s rfl]
  | cons s behind => simp [TermReader.endsTerm_cons, hfree s rfl]

/-- In a piece a term is read exactly where one stands. -/
theorem readTerm_piece_iff (hne : used ≠ [])
    (hfree : ∀ s ∈ used.tail, s.lexeme.isSign = false)
    (hrest : ∀ s ∈ rest.head?, s.lexeme.isSign = true) :
    TermReader.readTerm false (used ++ rest) = .ok (term, mid) ↔
      ∃ t behind, Spelled t.lexemes used behind ∧ mid = behind ++ rest ∧
        Stands w t (used.map Token.lexeme) (behind.map Token.lexeme) ∧ t.Means term := by
  have hbehind : ∀ {t : WrittenTerm} {behind : List Token}, Spelled t.lexemes used behind →
      ∀ s ∈ behind.head?, s.lexeme.isSign = false := by
    rintro t behind ⟨front, rfl, hfront⟩ s hs
    apply hfree s
    rw [List.tail_append_of_ne_nil (t.ne_nil_of_map_lexeme hfront)]
    exact List.mem_append_right _ (List.mem_of_mem_head? hs)
  rw [TermReader.readTerm_eq_ok_iff]
  constructor
  · rintro ⟨hend, t, -, hspell, hmeans⟩
    obtain ⟨behind, hused, rfl⟩ := exists_spelled_of_spelled_append hne hrest hspell
    have hfollowed := (endsTerm_append_iff (hbehind hused) hrest).1 hend
    refine ⟨t, behind, hused, rfl, ⟨?_, WrittenTerm.inRange_iff.2 ⟨term, hmeans⟩, hfollowed⟩,
      hmeans⟩
    obtain ⟨front, rfl, hfront⟩ := hused
    rw [List.map_append, hfront]
  · rintro ⟨t, behind, hused, rfl, hstands, hmeans⟩
    refine ⟨(endsTerm_append_iff (hbehind hused) hrest).2 hstands.followed, t,
      fun h => absurd h Bool.false_ne_true, ?_, hmeans⟩
    obtain ⟨front, rfl, hfront⟩ := hused
    exact ⟨front, List.append_assoc front behind rest, hfront⟩

end Reading

namespace SparsePoly

variable {tokens used rest : List Token} {piece : List Lexeme} {ts : List WrittenTerm}

theorem readTerms_permissive_first {C : Type} [Coefficient C] (first : Bool) :
    readTerms (C := C) .permissive first tokens = readTerms .permissive true tokens := by
  induction hn : tokens.length using Nat.strongRecOn generalizing tokens with
  | ind n ih =>
    cases tokens with
    | nil =>
      rw [readTerms_nil, readTerms_nil]
      cases first <;> rfl
    | cons token rest =>
      cases hread : TermReader.readTerm (C := C) false (token :: rest) with
      | ok result => rw [readTerms_permissive_of_ok hread, readTerms_permissive_of_ok hread]
      | error refusal =>
        rw [readTerms_permissive_of_error hread, readTerms_permissive_of_error hread]
        exact ih _ (hn ▸ TermReader.length_resume_lt hread) rfl

theorem readTerms_of_contributes (h : Contributes w piece ts)
    (hused : used.map Token.lexeme = piece)
    (hfree : ∀ s ∈ used.tail, s.lexeme.isSign = false)
    (hrest : ∀ s ∈ rest.head?, s.lexeme.isSign = true) :
    ∃ terms : List (Term (Signed w)), List.Forall₂ WrittenTerm.Means ts terms ∧
      (readTerms .permissive true (used ++ rest)).1 =
        terms ++ (readTerms .permissive true rest).1 := by
  induction h generalizing used with
  | @read t piece remaining ts hstands hothers ih =>
    subst hused
    obtain ⟨front, behind, rfl, hfront, hbehind⟩ := List.map_eq_append_iff.1 hstands.front
    obtain ⟨term, hmeans⟩ := WrittenTerm.inRange_iff.1 hstands.inRange
    obtain ⟨token, front, rfl⟩ := List.exists_cons_of_ne_nil (t.ne_nil_of_map_lexeme hfront)
    have hread : TermReader.readTerm false ((token :: front ++ behind) ++ rest) =
        .ok (term, behind ++ rest) :=
      (readTerm_piece_iff (List.cons_ne_nil _ _) hfree hrest).2
        ⟨t, behind, ⟨token :: front, rfl, hfront⟩, rfl, hbehind ▸ hstands, hmeans⟩
    obtain ⟨terms, hterms, hreads⟩ := ih hbehind fun s hs =>
      hfree s (List.mem_append_right _ (List.mem_of_mem_tail hs))
    refine ⟨term :: terms, .cons hmeans hterms, ?_⟩
    rw [List.cons_append, List.cons_append] at hread ⊢
    rw [readTerms_permissive_of_ok hread, readTerms_permissive_first, hreads]
    rfl
  | @stop piece hnone =>
    refine ⟨[], .nil, ?_⟩
    cases used with
    | nil => rfl
    | cons token used =>
      cases hread : TermReader.readTerm (C := Signed w) false ((token :: used) ++ rest) with
      | ok result =>
        obtain ⟨t, behind, -, -, hstands, -⟩ :=
          (readTerm_piece_iff (List.cons_ne_nil _ _) hfree hrest).1 hread
        exact absurd (hused ▸ hstands) (hnone _ _)
      | error refusal =>
        have hnext : TermReader.nextSign (used ++ rest) = rest :=
          TermReader.nextSign_append hfree hrest
        rw [List.cons_append] at hread ⊢
        rw [readTerms_permissive_of_error hread, TermReader.resume_of_readTerm_error hread, hnext]
        rfl

/-- The terms that are read are those of the pieces in their order. -/
theorem readTerms_of_pieces {tss : List (List WrittenTerm)}
    (h : List.Forall₂ (Contributes w) (pieces (tokens.map Token.lexeme)) tss) :
    List.Forall₂ WrittenTerm.Means tss.flatten
      (readTerms (C := Signed w) .permissive true tokens).1 := by
  induction hn : tokens.length using Nat.strongRecOn generalizing tokens tss with
  | ind n ih =>
    cases tokens with
    | nil =>
      cases h
      rw [readTerms_nil]
      exact .nil
    | cons token behind =>
      have hfree : ∀ s ∈ behind.takeWhile (!·.lexeme.isSign), s.lexeme.isSign = false := by
        intro s hs
        simpa using List.mem_takeWhile_imp (p := fun s : Token => !s.lexeme.isSign) hs
      have hrest : ∀ s ∈ (TermReader.nextSign behind).head?, s.lexeme.isSign = true := by
        intro s hs
        have hhead := List.head?_dropWhile_not (fun s : Token => !s.lexeme.isSign) behind
        rw [← TermReader.nextSign, Option.mem_def.1 hs] at hhead
        simpa using hhead
      have hlt : (TermReader.nextSign behind).length < n := by
        have hle := (List.dropWhile_suffix (l := behind) (!·.lexeme.isSign)).length_le
        rw [← hn, TermReader.nextSign, List.length_cons]
        omega
      have hcut : token :: behind = (token :: behind.takeWhile (!·.lexeme.isSign)) ++
          TermReader.nextSign behind := by
        rw [List.cons_append, TermReader.nextSign, List.takeWhile_append_dropWhile]
      rw [List.map_cons, pieces_cons, List.takeWhile_map, List.dropWhile_map] at h
      cases h with
      | @cons piece ts others tss hpiece hothers =>
        have hused : (token :: behind.takeWhile (!·.lexeme.isSign)).map Token.lexeme =
            token.lexeme :: (behind.takeWhile (!·.lexeme.isSign)).map Token.lexeme := rfl
        obtain ⟨terms, hterms, hread⟩ := readTerms_of_contributes hpiece hused hfree hrest
        rw [hcut, hread, List.flatten_cons]
        exact List.rel_append hterms (ih _ hlt hothers rfl)

private theorem writtenSum_flatten (tss : List (List WrittenTerm)) (e : Exponent) :
    writtenSum tss.flatten e = (tss.map fun ts => writtenSum ts e).sum := by
  rw [writtenSum, List.map_flatten, List.sum_flatten, List.map_map]
  rfl

variable {text : String} {tss : List (List WrittenTerm)}

theorem coeff_parse {p : SparsePoly (Signed w)}
    (h : List.Forall₂ (Contributes w) (pieces ((Token.scan text).map Token.lexeme)) tss)
    (hp : parse text = .ok p) (e : Exponent) :
    (p.coeff e).val = (tss.map fun ts => writtenSum ts e).sum := by
  rw [coeff_ofTerms hp, exactSum_eq_writtenSum (readTerms_of_pieces h), writtenSum_flatten]

theorem parse_eq_error_iff {f : Fault}
    (h : List.Forall₂ (Contributes w) (pieces ((Token.scan text).map Token.lexeme)) tss) :
    parse (C := Signed w) text = .error f ↔
      f = .arithmetic .add ∧ ∃ n e, ¬ Fits w (writtenSum (tss.flatten.take n) e) := by
  have htake : ∀ n e, exactSum ((readTerms (C := Signed w) .permissive true
      (Token.scan text)).1.take n) e = writtenSum (tss.flatten.take n) e := fun n =>
    exactSum_eq_writtenSum (List.forall₂_take n (readTerms_of_pieces h))
  rw [parse, ofTerms_eq_error_iff]
  simp only [htake]

private theorem exists_forall₂_contributes (w : Nat) (ps : List (List Lexeme)) :
    ∃ tss, List.Forall₂ (Contributes w) ps tss :=
  exists_forall₂_iff.2 fun piece _ => exists_contributes w piece

private theorem isSign_of_mem_head?_scan {c : Char} {cs : List Char} {offset : Nat}
    (hc : c ∈ (cs.dropWhile isBlank).head?) (hsign : c = '+' ∨ c = '-') :
    ∀ s ∈ (Token.scanFrom offset cs).head?, s.lexeme.isSign = true := by
  induction cs generalizing offset with
  | nil => cases hc
  | cons d cs ih =>
    rw [List.dropWhile_cons] at hc
    by_cases hblank : isBlank d = true
    · rw [if_pos hblank] at hc
      rw [Token.scanFrom_blank hblank]
      exact ih hc
    · rw [if_neg hblank] at hc
      cases hc
      rintro s hs
      rcases hsign with rfl | rfl
      · cases hs
        rfl
      · cases hs
        rfl

private theorem digitFree_of_sign {c : Char} {cs : List Char}
    (hc : c ∈ (cs.dropWhile isBlank).head?)
    (hsign : c = '+' ∨ c = '-') : Token.DigitFree cs := by
  intro d hd
  cases cs with
  | nil => cases hd
  | cons d cs =>
    cases hd
    by_cases hblank : isBlank d = true
    · exact not_isDigit_of_isBlank hblank
    · rw [List.dropWhile_cons, if_neg hblank] at hc
      cases hc
      rcases hsign with rfl | rfl
      · rfl
      · rfl

/-- In front of a sign a text can be cut. -/
theorem agree_parse_append {s t : String} {c : Char}
    (hc : c ∈ (t.toList.dropWhile isBlank).head?) (hsign : c = '+' ∨ c = '-') :
    Agree (parse (C := Signed w) (s ++ t)) (do (← parse s).add (← parse t)) := by
  intro u r hu hr
  obtain ⟨p, hp, hr⟩ := bind_eq_ok_iff.1 hr
  obtain ⟨q, hq, hr⟩ := bind_eq_ok_iff.1 hr
  obtain ⟨tss, htss⟩ := exists_forall₂_contributes w (pieces ((Token.scan s).map Token.lexeme))
  obtain ⟨uss, huss⟩ := exists_forall₂_contributes w (pieces ((Token.scan t).map Token.lexeme))
  have hhead : ∀ l ∈ ((Token.scan t).map Token.lexeme).head?, l.isSign = true := by
    intro l hl
    rw [List.head?_map] at hl
    obtain ⟨token, htoken, rfl⟩ := Option.map_eq_some_iff.1 hl
    exact isSign_of_mem_head?_scan hc hsign token htoken
  have hpieces : pieces ((Token.scan (s ++ t)).map Token.lexeme) =
      pieces ((Token.scan s).map Token.lexeme) ++ pieces ((Token.scan t).map Token.lexeme) := by
    rw [Token.lexemes_scan_append (digitFree_of_sign hc hsign), pieces_append hhead]
  have hboth : List.Forall₂ (Contributes w) (pieces ((Token.scan (s ++ t)).map Token.lexeme))
      (tss ++ uss) := hpieces ▸ List.rel_append htss huss
  have hpcan : p.Canonical := canonical_ofTerms hp
  apply (canonical_ofTerms hu).ext isZero_zero (hpcan.addTerms hr)
  intro e
  rw [Signed.ext_iff, coeff_parse hboth hu, coeff_add hpcan (canonical_ofTerms hq) hr,
    coeff_parse htss hp, coeff_parse huss hq, List.map_append, List.sum_append]

/-- The permissive mode returns the exact sum of what the pieces contribute, and is stopped exactly
if a sum on the way is out of range.  In front of a sign a text can be cut. -/
theorem parse_sum_of_pieces (w : Nat) :
    (∀ text, ∃ tss,
      List.Forall₂ (Contributes w) (pieces ((Token.scan text).map Token.lexeme)) tss) ∧
    (∀ text tss,
      List.Forall₂ (Contributes w) (pieces ((Token.scan text).map Token.lexeme)) tss →
      (∀ p : SparsePoly (Signed w), parse text = .ok p →
        ∀ e, (p.coeff e).val = (tss.map fun ts => writtenSum ts e).sum) ∧
      ∀ f, parse (C := Signed w) text = .error f ↔
        f = .arithmetic .add ∧ ∃ n e, ¬ Fits w (writtenSum (tss.flatten.take n) e)) ∧
    ∀ s t : String, (∃ c ∈ (t.toList.dropWhile isBlank).head?, c = '+' ∨ c = '-') →
      Agree (parse (C := Signed w) (s ++ t)) (do (← parse s).add (← parse t)) := by
  refine ⟨fun text => exists_forall₂_contributes w _, fun text tss h => ?_, ?_⟩
  · exact ⟨fun p hp => coeff_parse h hp, fun f => parse_eq_error_iff h⟩
  · rintro s t ⟨c, hc, hsign⟩
    exact agree_parse_append hc hsign

private theorem not_stands_nil {t : WrittenTerm} {rest : List Lexeme} : ¬ Stands w t [] rest := by
  intro h
  exact t.lexemes_ne_nil (List.append_eq_nil_iff.1 h.front.symm).1

/-- A literal with a foreign letter behind it is lost with the rest of its piece; a literal behind a
whole term is a term of its own. -/
theorem parse_sum_of_pieces_foreign_letter :
    (∃ p : SparsePoly (Signed 32), parse "2y^4 + 3x 5" = .ok p ∧ ∀ e, (p.coeff e).val =
      ([[], [⟨some false, ['3'], some ⟨false, none⟩⟩, ⟨none, ['5'], none⟩]].map
        fun ts => writtenSum ts e).sum) ∧
    ∃ u : SparsePoly (Signed 32), parse ("2y^4 " ++ "+ 3x 5") = .ok u ∧
      (do (← parse "2y^4 ").add (← parse "+ 3x 5")) = .ok u := by
  obtain ⟨-, hsum, hcut⟩ := parse_sum_of_pieces 32
  constructor
  · have hforeign : ∀ t rest, ¬ Stands 32 t
        [.literal ['2'], .other 'y', .caret, .literal ['4']] rest := by
      rintro ⟨sign, digits, power⟩ rest ⟨hfront, -, hfollowed⟩
      rcases sign with - | (- | -)
      all_goals rcases power with - | ⟨- | -, - | exponent⟩
      all_goals
        simp [WrittenTerm.lexemes, signLexemes, powerLexemes, exponentLexemes] at hfront
      obtain ⟨rfl, rfl⟩ := hfront
      exact absurd (hfollowed _ rfl) (by decide)
    have hcontributes : List.Forall₂ (Contributes 32)
        (pieces ((Token.scan "2y^4 + 3x 5").map Token.lexeme))
        [[], [⟨some false, ['3'], some ⟨false, none⟩⟩, ⟨none, ['5'], none⟩]] := by
      have hpieces : pieces ((Token.scan "2y^4 + 3x 5").map Token.lexeme) =
          [[.literal ['2'], .other 'y', .caret, .literal ['4']],
            [.plus, .literal ['3'], .x, .literal ['5']]] := by decide +kernel
      rw [hpieces]
      refine .cons (.stop hforeign) (.cons (.read ⟨rfl, ?_, ?_⟩ (.read ⟨rfl, ?_, ?_⟩
        (.stop fun _ _ => not_stands_nil))) .nil)
      · simp only [WrittenTerm.InRange]
        decide
      · decide
      · simp only [WrittenTerm.InRange]
        decide
      · decide
    obtain ⟨p, hp⟩ : ∃ p : SparsePoly (Signed 32), parse "2y^4 + 3x 5" = .ok p :=
      ⟨⟨[⟨0, ⟨5, by decide⟩⟩, ⟨1, ⟨3, by decide⟩⟩]⟩, by decide +kernel⟩
    exact ⟨p, hp, (hsum _ _ hcontributes).1 p hp⟩
  · have hwhole : parse ("2y^4 " ++ "+ 3x 5") =
        .ok (⟨[⟨0, ⟨5, by decide⟩⟩, ⟨1, ⟨3, by decide⟩⟩]⟩ : SparsePoly (Signed 32)) := by
      decide +kernel
    obtain ⟨r, hr⟩ : ∃ r : SparsePoly (Signed 32),
        (do (← parse "2y^4 ").add (← parse "+ 3x 5")) = .ok r :=
      ⟨⟨[⟨0, ⟨5, by decide⟩⟩, ⟨1, ⟨3, by decide⟩⟩]⟩, by decide +kernel⟩
    cases hcut _ _ ⟨'+', by decide +kernel, .inl rfl⟩ _ r hwhole hr
    exact ⟨_, hwhole, hr⟩

end SparsePoly

end Univariate
