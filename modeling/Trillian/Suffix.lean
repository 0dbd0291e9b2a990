import Trillian.Base64

/-! The subtree keys of `storage/suffix.go`: the part of a node ID below its subtree's prefix,
stored as the base64 of its bit count followed by its path bytes. Go strings are byte lists. -/

namespace Trillian

open Base64

/-- `Suffix`: the number of bits of the node ID below the subtree's prefix, and their bytes. -/
structure Suffix where
  bits : UInt8
  path : List UInt8
deriving DecidableEq

/-- `Suffix.String`: one byte of bit count, then the path bytes, in base64. -/
def Suffix.string (s : Suffix) : List UInt8 :=
  let r := s.bits :: s.path
  stdEncoding.encodeToString r

/-- `ParseSuffix`. Go indexes `b[0]` without looking at the length, so a decode to no bytes
panics, which is `none`. -/
def parseSuffix (s : List UInt8) : Option (Except CorruptInputError Suffix) :=
  match stdEncoding.decodeString s with
  | (_, some err) => some (.error err)
  | (b, none) =>
    match b with
    | [] => none
    | b₀ :: path => some (.ok ⟨b₀, path⟩)

/-- `ParseSuffix` reads back every suffix `String` writes, whatever the length of its path. -/
theorem parseSuffix_string (s : Suffix) : parseSuffix s.string = some (.ok s) := by
  rw [parseSuffix, Suffix.string, stdEncoding.decodeString_encodeToString]

theorem Suffix.string_injective : Function.Injective Suffix.string := by
  intro s t h
  have hst := congrArg parseSuffix h
  rw [parseSuffix_string, parseSuffix_string] at hst
  simpa using hst

/-- `ParseSuffix` panics exactly on the inputs made of line breaks, the empty one among them:
those are the inputs the decoder turns into no bytes and no error. -/
theorem parseSuffix_eq_none_iff (x : List UInt8) :
    parseSuffix x = none ↔ ∀ c ∈ x, isNewline c = true := by
  rw [← stdEncoding.decodeString_eq_nil_iff, parseSuffix]
  constructor
  · intro h
    split at h
    · contradiction
    · rename_i b hb
      cases b with
      | nil => exact hb
      | cons b₀ path => contradiction
  · intro h
    rw [h]

/-- The empty string and a lone line break make `ParseSuffix` panic. -/
theorem parseSuffix_panics_on_line_breaks : parseSuffix [] = none ∧ parseSuffix [13, 10] = none :=
  ⟨rfl, rfl⟩

end Trillian
