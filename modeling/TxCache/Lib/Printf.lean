import Mathlib

/-!
# Formatted output into bounded buffers

`snprintf(buf, size, fmt, ...)` formats its text and writes at most `size - 1` characters of it,
then a terminator. The idiom `snprintfcat(buf, size, fmt, ...)` appends the same way: it calls
`vsnprintf` at the end of the text already in the buffer, found with `strnlen`, with the bytes
that are left. Text is `List Char`, the terminator the end of the list.

The conversions are `%x` and `%ld`, which print a number in base 16 or 10 without leading zeros,
and `%s`, which copies a string.

`foldl_snprintfcat` is the lemma the rest builds on: a buffer filled by one `snprintf` and any
number of `snprintfcat`s holds the first `size - 1` characters of the whole text, as though it
had been written in one call. Truncation happens once, at the end.
-/

namespace CString

/-- What `snprintf` leaves in a buffer of `size` bytes. -/
def snprintf (size : ℕ) (text : List Char) : List Char := text.take (size - 1)

/-- `snprintfcat`: `vsnprintf` at `buf + strnlen(buf, size)`, into the bytes left. -/
def snprintfcat (size : ℕ) (buf text : List Char) : List Char :=
  buf ++ snprintf (size - buf.length) text

/-- `%x` of an `unsigned int`. -/
def formatHex (n : ℕ) : List Char := Nat.toDigits 16 n

/-- `%ld`. -/
def formatLong (n : ℤ) : List Char :=
  if n < 0 then '-' :: Nat.toDigits 10 n.natAbs else Nat.toDigits 10 n.toNat

variable {size : ℕ} {text : List Char}

theorem length_snprintf_le (size : ℕ) (text : List Char) :
    (snprintf size text).length ≤ size - 1 :=
  List.length_take_le _ _

theorem snprintf_of_length_lt (h : text.length < size) : snprintf size text = text :=
  List.take_of_length_le (by omega)

theorem snprintf_prefix (size : ℕ) (text : List Char) : (snprintf size text).IsPrefix text :=
  List.take_prefix _ _

theorem snprintfcat_snprintf (size : ℕ) (s t : List Char) :
    snprintfcat size (snprintf size s) t = snprintf size (s ++ t) := by
  unfold snprintfcat snprintf
  rw [List.take_append, List.length_take]
  -- the room left after a prefix of `s` is what is left of `size - 1` after all of `s`
  congr 2
  omega

/-- **A chain of `snprintfcat`s truncates once.** -/
theorem foldl_snprintfcat (size : ℕ) (s : List Char) (ts : List (List Char)) :
    ts.foldl (snprintfcat size) (snprintf size s) = snprintf size (s ++ ts.flatten) := by
  induction ts generalizing s with
  | nil => simp
  | cons t ts ih =>
    rw [List.foldl_cons, snprintfcat_snprintf, ih, List.flatten_cons, List.append_assoc]

theorem snprintf_append_snprintf {size size' : ℕ} (h : size ≤ size') (p t : List Char) :
    snprintf size (p ++ snprintf size' t) = snprintf size (p ++ t) := by
  unfold snprintf
  rw [List.take_append, List.take_append, List.take_take]
  congr 2
  omega

theorem length_formatHex_le {n : ℕ} (h : n < 2 ^ 32) : (formatHex n).length ≤ 8 :=
  Nat.toDigits_length 16 n 8 (by norm_num) (by simpa using h)

@[simp] theorem formatLong_natCast (n : ℕ) : formatLong n = Nat.toDigits 10 n := by
  simp [formatLong]

end CString
