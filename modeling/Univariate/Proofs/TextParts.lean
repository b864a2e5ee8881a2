import Mathlib.Data.String.Basic
import Univariate.Proofs.Scanning
import Univariate.Text.TermProgress

/-! # Parts of a text and positions of its tokens

A part of a text between two bytes exists if both are between characters and in order, and a token
at a position exists if the position is before the end.  Tokens begin between characters, later
tokens further behind, so from a token on there is a part up to every later token and up to the
end. -/

namespace Univariate

inductive Trap
  /-- No token has this position. -/
  | index (position : Nat)
  /-- The text has no part between these bytes. -/
  | slice (start stop : Nat)
  | negation (fault : Fault)
  | addition (fault : Fault)
  deriving DecidableEq, Repr

/-- The part of a text between two bytes.  Both have to stand in front of a character or at the end
of the text, and in this order. -/
def slice (text : String) (start stop : Nat) : Except Trap String :=
  if start ≤ stop ∧ (⟨start⟩ : String.Pos.Raw).IsValid text ∧
      (⟨stop⟩ : String.Pos.Raw).IsValid text then
    .ok (String.Pos.Raw.extract text ⟨start⟩ ⟨stop⟩)
  else .error (.slice start stop)

private theorem slice_append (before part behind : String) :
    slice (before ++ part ++ behind) before.utf8ByteSize
      (before.utf8ByteSize + part.utf8ByteSize) = .ok part := by
  rw [slice, if_pos]
  · have hextract := String.extract_of_valid before.toList part.toList behind.toList
    simpa [String.utf8Len_toList, String.append_assoc] using hextract
  · refine ⟨Nat.le_add_right .., ?_, ?_⟩
    · exact String.Pos.Raw.isValid_iff_exists_append.2
        ⟨before, part ++ behind, String.append_assoc, rfl⟩
    · exact String.Pos.Raw.isValid_iff_exists_append.2 ⟨before ++ part, behind, rfl, by
        simp [String.rawEndPos]⟩

def CutAt (text : String) (place : Nat) : Prop :=
  ∃ before behind : String, text = before ++ behind ∧ place = before.utf8ByteSize

private theorem cutAt_stop (text : String) : CutAt text text.utf8ByteSize :=
  ⟨text, "", String.append_empty.symm, rfl⟩

theorem Token.StandsIn.cutAt {text : String} {t : Token} (h : t.StandsIn text) :
    CutAt text t.offset := by
  obtain ⟨before, behind, htext, hoffset⟩ := h
  exact ⟨before, String.ofList t.lexeme.text ++ behind, by rw [htext, String.append_assoc], hoffset⟩

def PartOf (text : String) (start stop : Nat) (part : String) : Prop :=
  ∃ before behind : String, text = before ++ part ++ behind ∧ start = before.utf8ByteSize ∧
    stop = before.utf8ByteSize + part.utf8ByteSize

theorem PartOf.slice_eq {text part : String} {start stop : Nat} (h : PartOf text start stop part) :
    slice text start stop = .ok part := by
  obtain ⟨before, behind, rfl, rfl, rfl⟩ := h
  exact slice_append before part behind

/-- Between two places where a text can be cut there is a part of it. -/
theorem exists_partOf {text : String} {start stop : Nat} (hstart : CutAt text start)
    (hstop : CutAt text stop) (hle : start ≤ stop) : ∃ part, PartOf text start stop part := by
  obtain ⟨before, rest, htext, rfl⟩ := hstart
  obtain ⟨front, behind, htext', rfl⟩ := hstop
  have hlists : before.toList ++ rest.toList = front.toList ++ behind.toList := by
    rw [← String.toList_append, ← htext, htext', String.toList_append]
  rcases List.append_eq_append_iff.1 hlists with ⟨part, hfront, -⟩ | ⟨part, hbefore, -⟩
  · have hfront : front = before ++ String.ofList part := by
      rw [← String.ofList_toList (s := front), hfront, String.ofList_append, String.ofList_toList]
    refine ⟨String.ofList part, before, behind, by rw [htext', hfront], rfl, ?_⟩
    rw [hfront, String.utf8ByteSize_append]
  · have hbefore : before = front ++ String.ofList part := by
      rw [← String.ofList_toList (s := before), hbefore, String.ofList_append, String.ofList_toList]
    rw [hbefore, String.utf8ByteSize_append] at hle
    refine ⟨"", before, rest, by rw [htext, String.append_empty], rfl, ?_⟩
    rw [hbefore, String.utf8ByteSize_append, String.utf8ByteSize_empty]
    omega

def tokenAt (tokens : List Token) (position : Nat) : Except Trap Token :=
  match tokens[position]? with
  | some t => .ok t
  | none => .error (.index position)

/-- The byte at which the token at a position begins; behind the last token it is the end. -/
def offsetAt (text : String) (position : Nat) : Nat :=
  ((Token.scan text)[position]?.map Token.offset).getD text.utf8ByteSize

/-- The position at which an end part of the tokens begins. -/
def positionOf (tokens rest : List Token) : Nat := tokens.length - rest.length

/-- The position of the next sign; it is behind the last token if no sign follows. -/
def signFrom (tokens : List Token) (position : Nat) : Nat :=
  position + (tokens.drop position).findIdx (·.lexeme.isSign)

section Positions

variable {text : String} {tokens rest : List Token} {t : Token} {position start next : Nat}

theorem cutAt_offsetAt (text : String) (position : Nat) : CutAt text (offsetAt text position) := by
  rw [offsetAt]
  cases h : (Token.scan text)[position]? with
  | none => exact cutAt_stop text
  | some t => exact (Token.standsIn_of_mem_scan (List.mem_of_getElem? h)).cutAt

theorem offset_le_offsetAt (ht : (Token.scan text)[start]? = some t) (hlt : start < next) :
    t.offset ≤ offsetAt text next := by
  rw [offsetAt]
  cases hnext : (Token.scan text)[next]? with
  | none =>
    have hmem := Token.offset_lt_of_mem_scanFrom (List.mem_of_getElem? ht)
    rw [Nat.zero_add, String.ofList_toList] at hmem
    exact hmem.le
  | some u =>
    obtain ⟨hstart, rfl⟩ := List.getElem?_eq_some_iff.1 ht
    obtain ⟨hstop, rfl⟩ := List.getElem?_eq_some_iff.1 hnext
    exact (List.pairwise_iff_getElem.1 (Token.pairwise_scanFrom 0 text.toList) _ _ hstart hstop
      hlt).le

theorem drop_positionOf (h : rest <:+ tokens) : tokens.drop (positionOf tokens rest) = rest :=
  (List.suffix_iff_eq_drop.1 h).symm

theorem positionOf_le (tokens rest : List Token) : positionOf tokens rest ≤ tokens.length :=
  Nat.sub_le ..

theorem lt_positionOf (hposition : position < tokens.length)
    (h : rest.length < (tokens.drop position).length) : position < positionOf tokens rest := by
  rw [List.length_drop] at h
  rw [positionOf]
  omega

theorem le_signFrom (tokens : List Token) (position : Nat) : position ≤ signFrom tokens position :=
  Nat.le_add_right ..

theorem signFrom_le (h : position ≤ tokens.length) : signFrom tokens position ≤ tokens.length := by
  have hle : (tokens.drop position).findIdx (·.lexeme.isSign) ≤ (tokens.drop position).length :=
    List.findIdx_le_length
  rw [List.length_drop] at hle
  rw [signFrom]
  omega

theorem drop_signFrom (tokens : List Token) (position : Nat) :
    tokens.drop (signFrom tokens position) = TermReader.nextSign (tokens.drop position) := by
  rw [signFrom, TermReader.nextSign, List.dropWhile_eq_drop_findIdx_not, List.drop_drop]
  simp only [Bool.not_not]

theorem isSign_of_signFrom (h : tokens[signFrom tokens position]? = some t) :
    t.lexeme.isSign = true := by
  have hhead := List.head?_dropWhile_not (!·.lexeme.isSign) (tokens.drop position)
  rw [← List.head?_drop, drop_signFrom, TermReader.nextSign] at h
  rw [h] at hhead
  simpa using hhead

end Positions

end Univariate
