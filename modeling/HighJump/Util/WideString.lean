/-
HighJump.Util.WideString — `to_wstring` and `from_wstring` of
`hj/util/string_util.hpp`, on POSIX.

A view is a part of a buffer; what is around it in the buffer is memory
too. `mbsrtowcs` and `wcsrtombs` are called with the pointer of the view
and not with its size: a first time to count, without a destination, and a
second time to convert. What they do with the text they find is the
converter of the locale, a parameter.

`wchar_t` has 32 bits. A call that reads beyond the buffer has no result,
and `some none` is `std::nullopt`.
-/
import HighJump.Lib.Conversion

namespace HighJump.Util.WideString

open HighJump.Lib

/-- `std::basic_string_view`, with the buffer it points into. -/
structure View (CharT : Type) where
  buffer : List CharT
  offset : Nat
  size : Nat
  within : offset + size ≤ buffer.length

namespace View

variable {CharT : Type} (v : View CharT)

/-- The buffer from `data()` on. -/
def memory : List CharT := v.buffer.drop v.offset

/-- The characters of the view. -/
def chars : List CharT := v.memory.take v.size

/-- What follows the view in the buffer. -/
def following : List CharT := v.memory.drop v.size

end View

section

variable {σ α β : Type} [DecidableEq α] [OfNat α 0] [OfNat β 0]

/-- The text of both implementations: empty views are left out, and the
result has the size that was counted. -/
def convertImpl (C : Converter σ α β) (v : View α) : Option (Option (List β)) :=
  if v.size = 0 then some (some [])
  else
    match C.call none v.memory C.start [] with
    | .overrun => none
    | .failed => some none
    | .done counted =>
        let len := counted.length
        match C.call (some len) v.memory C.start [] with
        | .overrun => none
        | .failed => some none
        | .done converted => some (some (converted ++ List.replicate (len - converted.length) 0))

end

variable {σ τ : Type}

/-- `detail::utf8_to_wide_impl(utf8_str)` -/
def utf8ToWideImpl (mb : Converter σ UInt8 UInt32) (v : View UInt8) :
    Option (Option (List UInt32)) := convertImpl mb v

/-- `detail::wide_to_utf8_impl(wide_str)` -/
def wideToUtf8Impl (wc : Converter τ UInt32 UInt8) (v : View UInt32) :
    Option (Option (List UInt8)) := convertImpl wc v

/-- `to_wstring(src)` -/
def toWstring (mb : Converter σ UInt8 UInt32) (src : View UInt8) : Option (Option (List UInt32)) :=
  utf8ToWideImpl mb src

/-- `from_wstring(src)` -/
def fromWstring (wc : Converter τ UInt32 UInt8) (src : View UInt32) :
    Option (Option (List UInt8)) :=
  wideToUtf8Impl wc src

end HighJump.Util.WideString
