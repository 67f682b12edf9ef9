/-!
# Reading UTF-8

`Utf8.decode` turns bytes into text or says where they stop being text. A character takes one to four
bytes: the first says how many, and which values the second may have, so that no character is written
longer than needed and none lies among the surrogates. Bytes that break these rules are `invalid`;
bytes that end in the middle of a character are `incomplete`.
-/

namespace Lox.Utf8

/-- Why bytes are not text, and the index of the character that goes wrong. -/
inductive Issue where
  | invalid (index length : Nat)
  | incomplete (index : Nat)
  deriving Repr, DecidableEq

/-- The words for an issue. -/
def Issue.message : Issue → String
  | .invalid index length =>
    s!"invalid utf-8 sequence of {length} bytes from index {index}"
  | .incomplete index => s!"incomplete utf-8 byte sequence from index {index}"

/-- The values from which a second byte is taken, and how many bytes follow the first in all. -/
structure Lead where
  low : UInt8
  high : UInt8
  following : Nat

/-- What the first byte of a character of several bytes announces. -/
def lead? (first : UInt8) : Option Lead :=
  if 0xC2 ≤ first && first ≤ 0xDF then some ⟨0x80, 0xBF, 1⟩
  else if first == 0xE0 then some ⟨0xA0, 0xBF, 2⟩
  else if first == 0xED then some ⟨0x80, 0x9F, 2⟩
  else if 0xE1 ≤ first && first ≤ 0xEF then some ⟨0x80, 0xBF, 2⟩
  else if first == 0xF0 then some ⟨0x90, 0xBF, 3⟩
  else if 0xF1 ≤ first && first ≤ 0xF3 then some ⟨0x80, 0xBF, 3⟩
  else if first == 0xF4 then some ⟨0x80, 0x8F, 3⟩
  else none

/-- The bits that the first byte of a character gives, with so many bytes behind it. -/
def leadBits (first : UInt8) (following : Nat) : Nat := first.toNat % Nat.pow 2 (6 - following)

/-- The end of a scan that stays inside one character. -/
inductive Tail where
  /-- All bytes were fit: the code of the character, and what is left. -/
  | done (code : Nat) (rest : List UInt8)
  /-- The byte behind this many of the character is unfit. -/
  | broken (length : Nat)
  /-- The bytes ended. -/
  | ended

/-- Reads `more` bytes of a character of which `seen` are read and spell `code`; the next byte has to
lie between `low` and `high`, the ones behind it between `80` and `BF`. -/
def continuation (code seen : Nat) (low high : UInt8) : Nat → List UInt8 → Tail
  | 0, rest => .done code rest
  | _ + 1, [] => .ended
  | more + 1, byte :: rest =>
    if low ≤ byte && byte ≤ high then
      continuation (code * 64 + byte.toNat % 64) (seen + 1) 0x80 0xBF more rest
    else .broken seen

/-- Reads the first character of bytes that start with `first`. -/
def character (first : UInt8) (rest : List UInt8) : Tail :=
  if first < 0x80 then .done first.toNat rest
  else match lead? first with
    | none => .broken 1
    | some lead =>
      continuation (leadBits first lead.following) 1 lead.low lead.high lead.following rest

theorem length_le_of_continuation {code seen more result : Nat} {low high : UInt8}
    {bytes rest : List UInt8} (h : continuation code seen low high more bytes = .done result rest) :
    rest.length ≤ bytes.length := by
  induction more generalizing code seen low high bytes with
  | zero => simp only [continuation, Tail.done.injEq] at h; simp [h.2]
  | succ more ih =>
    cases bytes with
    | nil => simp [continuation] at h
    | cons byte bytes =>
      rw [continuation] at h
      split at h
      · exact Nat.le_succ_of_le (ih h)
      · simp at h

theorem length_le_of_character {first : UInt8} {bytes rest : List UInt8} {code : Nat}
    (h : character first bytes = .done code rest) : rest.length ≤ bytes.length := by
  unfold character at h
  split at h
  · simp only [Tail.done.injEq] at h; simp [h.2]
  · split at h
    · simp at h
    · exact length_le_of_continuation h

/-- The characters that the bytes from `index` on spell. -/
def decodeFrom (index : Nat) (bytes : List UInt8) : Except Issue (List Char) :=
  match bytes with
  | [] => .ok []
  | first :: more =>
    match _ : character first more with
    | .done code rest =>
      (decodeFrom (index + 1 + (more.length - rest.length)) rest).map (Char.ofNat code :: ·)
    | .broken length => .error (.invalid index length)
    | .ended => .error (.incomplete index)
  termination_by bytes.length
  decreasing_by exact Nat.lt_succ_of_le (length_le_of_character ‹_›)

/-- The text that bytes spell. -/
def decode (bytes : List UInt8) : Except Issue String := (decodeFrom 0 bytes).map String.ofList

/-- The bytes of a text. -/
def encode (text : String) : List UInt8 := text.toUTF8.toList

end Lox.Utf8
