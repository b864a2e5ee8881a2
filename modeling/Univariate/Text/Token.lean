/-! # Tokens

Polynomial text consists of signs, stars, carets, the variable, unsigned decimal literals, and any
other characters one by one.  A token knows where it begins, counted in bytes of the UTF-8 encoding.
Blank characters, those with the Unicode property `White_Space`, separate tokens and belong to none,
and a literal is as long as it can be. -/

namespace Univariate

/-- The code points with the property `White_Space`, as ranges with both ends included. -/
def blankRanges : List (Nat × Nat) :=
  [(0x0009, 0x000D), (0x0020, 0x0020), (0x0085, 0x0085), (0x00A0, 0x00A0), (0x1680, 0x1680),
    (0x2000, 0x200A), (0x2028, 0x2029), (0x202F, 0x202F), (0x205F, 0x205F), (0x3000, 0x3000)]

def isBlank (c : Char) : Bool := blankRanges.any fun r => r.1 ≤ c.toNat && c.toNat ≤ r.2

/-- The table has 25 code points. -/
example : (blankRanges.map fun r => r.2 + 1 - r.1).sum = 25 := by decide

theorem not_isDigit_of_isBlank {c : Char} (h : isBlank c = true) : c.isDigit = false := by
  rw [Bool.eq_false_iff]
  intro hd
  simp only [Char.isDigit, Bool.and_eq_true, decide_eq_true_eq, ge_iff_le,
    UInt32.le_iff_toNat_le] at hd
  simp only [isBlank, blankRanges, List.any_cons, List.any_nil, Bool.or_false, Bool.or_eq_true,
    Bool.and_eq_true, decide_eq_true_eq] at h
  simp only [Char.toNat] at h
  have h0 : ('0' : Char).val.toNat = 48 := rfl
  have h9 : ('9' : Char).val.toNat = 57 := rfl
  omega

inductive Lexeme
  | plus
  | minus
  | star
  | caret
  /-- The variable. -/
  | x
  /-- An unsigned decimal literal, kept as written. -/
  | literal (digits : List Char)
  | other (c : Char)
  deriving DecidableEq, Repr

namespace Lexeme

def text : Lexeme → List Char
  | plus => ['+']
  | minus => ['-']
  | star => ['*']
  | caret => ['^']
  | x => ['x']
  | literal digits => digits
  | other c => [c]

def isSign : Lexeme → Bool
  | plus | minus => true
  | _ => false

/-- The lexeme that a character other than a digit or a blank makes by itself. -/
def ofChar (c : Char) : Lexeme :=
  if c = '+' then plus
  else if c = '-' then minus
  else if c = '*' then star
  else if c = '^' then caret
  else if c = 'x' then x
  else other c

@[simp] theorem text_ofChar (c : Char) : (ofChar c).text = [c] := by
  rw [ofChar]
  repeat' split
  all_goals simp_all [text]

end Lexeme

/-- A lexeme and the byte offset at which it begins. -/
structure Token where
  lexeme : Lexeme
  offset : Nat
  deriving DecidableEq, Repr

namespace Token

/-- Puts a digit at a given offset in front of tokens; it joins a literal that begins right behind
it. -/
def consDigit (c : Char) (offset : Nat) : List Token → List Token
  | ⟨.literal digits, next⟩ :: rest =>
    if next = offset + 1 then ⟨.literal (c :: digits), offset⟩ :: rest
    else ⟨.literal [c], offset⟩ :: ⟨.literal digits, next⟩ :: rest
  | tokens => ⟨.literal [c], offset⟩ :: tokens

def scanFrom (offset : Nat) : List Char → List Token
  | [] => []
  | c :: rest =>
    let tokens := scanFrom (offset + c.utf8Size) rest
    if isBlank c then tokens
    else if c.isDigit then consDigit c offset tokens
    else ⟨.ofChar c, offset⟩ :: tokens

def scan (text : String) : List Token := scanFrom 0 text.toList

end Token

end Univariate
