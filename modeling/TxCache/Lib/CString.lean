import Mathlib

/-!
# C strings: scanning and splitting

The C library routines that read text, over strings modelled as `List Char` (the terminating NUL
is the end of the list).

* `sscanf` is an interpreter of format directives: white space, ordinary characters, and the two
  conversions `%u` and `%n`. It returns what the call assigns, in order, up to the first directive
  that fails; the count C returns is the number of `%u` values among them.
* `%u` reads as `strtoul` does: an optional sign and decimal digits, the value saturating at
  `ULONG_MAX` and negated modulo `2^64` after a minus sign, then stored in an `unsigned int`.
* `strsep` splits off one token at a single delimiter character, and `strsepAll` is the loop that
  calls it until the rest is `NULL`.

The lemmas read back what a printer writes: digits followed by a non-digit are scanned as their
value, and a `strsep` loop over tokens joined by the delimiter gives the tokens back.
-/

namespace CString

/-- `isspace` in the C locale. -/
def isSpace (c : Char) : Bool :=
  c = ' ' || c = '\t' || c = '\n' || c = '\x0b' || c = '\x0c' || c = '\r'

/-- A directive of a `scanf` format. -/
inductive ScanDirective
  /-- White space: skips any amount of white space in the input, none included. -/
  | space
  /-- An ordinary character: must be the next character of the input. -/
  | char (c : Char)
  /-- `%u`. -/
  | unsigned
  /-- `%n`: the number of characters read so far. -/
  | count
deriving DecidableEq, Repr

/-- The directives of a format string, for formats made of `%u`, `%n` and other characters. -/
def scanFormat : List Char → List ScanDirective
  | [] => []
  | '%' :: 'u' :: rest => .unsigned :: scanFormat rest
  | '%' :: 'n' :: rest => .count :: scanFormat rest
  | c :: rest => (if isSpace c then .space else .char c) :: scanFormat rest

/-- A value `sscanf` assigns. -/
inductive Scanned
  | value (v : ℕ)
  | position (n : ℕ)
deriving DecidableEq, Repr

/-- The value of a string of decimal digits. -/
def digitsValue (ds : List Char) : ℕ := ds.foldl (fun n d ↦ 10 * n + (d.toNat - '0'.toNat)) 0

/-- `%u` at the front of the input: its value and the rest of the input, or `none` for a matching
failure. -/
def scanUnsigned (s : List Char) : Option (ℕ × List Char) :=
  let s := s.dropWhile isSpace
  let (neg, s) : Bool × List Char := match s with
    | '-' :: r => (true, r)
    | '+' :: r => (false, r)
    | r => (false, r)
  let ds := s.takeWhile Char.isDigit
  if ds = [] then none
  else
    -- `strtoul` saturates, then negates in `unsigned long` after a minus sign
    let v := min (digitsValue ds) (2 ^ 64 - 1)
    let v := if neg then (2 ^ 64 - v) % 2 ^ 64 else v
    some (v % 2 ^ 32, s.dropWhile Char.isDigit)

/-- `sscanf` of the input `s` from position `pos`: what is assigned, up to the first directive
that fails. -/
def sscanf : List ScanDirective → List Char → ℕ → List Scanned
  | [], _, _ => []
  | .space :: fmt, s, pos =>
    sscanf fmt (s.dropWhile isSpace) (pos + (s.takeWhile isSpace).length)
  | .char c :: fmt, s, pos =>
    match s with
    | d :: s' => if d = c then sscanf fmt s' (pos + 1) else []
    | [] => []
  | .unsigned :: fmt, s, pos =>
    match scanUnsigned s with
    | some (v, s') => .value v :: sscanf fmt s' (pos + (s.length - s'.length))
    | none => []
  | .count :: fmt, s, pos => .position pos :: sscanf fmt s pos

/-- `strsep` at one delimiter: the token before it, and the rest after it, or `NULL` (`none`)
when the delimiter does not occur. -/
def strsep (delim : Char) (s : List Char) : List Char × Option (List Char) :=
  (s.takeWhile (· ≠ delim),
    match s.dropWhile (· ≠ delim) with
    | [] => none
    | _ :: rest => some rest)

/-- `while (s != NULL) tok = strsep(&s, delim)`: the tokens, for at most `fuel` calls. -/
def strsepAll (delim : Char) : ℕ → List Char → List (List Char)
  | 0, _ => []
  | fuel + 1, s =>
    match strsep delim s with
    | (tok, none) => [tok]
    | (tok, some rest) => tok :: strsepAll delim fuel rest

/-! ## Reading back what was printed -/

section ReadBack

variable {v : ℕ} {s : List Char}

theorem isSpace_eq_false_of_isDigit {c : Char} (h : c.isDigit = true) : isSpace c = false := by
  by_contra hs
  simp only [isSpace, Bool.not_eq_false, Bool.or_eq_true, decide_eq_true_eq] at hs
  rcases hs with (((((rfl | rfl) | rfl) | rfl) | rfl) | rfl) <;> revert h <;> decide

theorem isDigit_of_mem_toDigits {c : Char} (h : c ∈ Nat.toDigits 10 v) : c.isDigit = true :=
  Nat.isDigit_of_mem_toDigits (by norm_num) le_rfl h

theorem head_toDigits_append (v : ℕ) (s : List Char) :
    ∀ c ∈ (Nat.toDigits 10 v ++ s).head?, isSpace c = false := by
  obtain ⟨d, ds, hd⟩ := List.exists_cons_of_ne_nil (Nat.toDigits_ne_nil (n := v) (b := 10))
  rw [hd]
  rintro c hc
  simp only [List.cons_append, List.head?_cons, Option.mem_def, Option.some.injEq] at hc
  exact isSpace_eq_false_of_isDigit (isDigit_of_mem_toDigits (hc ▸ hd ▸ List.mem_cons_self))

theorem digitsValue_eq_ofDigitChars (ds : List Char) :
    digitsValue ds = Nat.ofDigitChars 10 ds 0 :=
  rfl

@[simp] theorem digitsValue_toDigits (v : ℕ) : digitsValue (Nat.toDigits 10 v) = v := by
  rw [digitsValue_eq_ofDigitChars, Nat.ofDigitChars_toDigits (by norm_num) le_rfl]

/-- **`%u` reads back a printed number** that fits in an `unsigned int`, when a non-digit follows
it. -/
theorem scanUnsigned_toDigits (hv : v < 2 ^ 32) (hs : ∀ c ∈ s.head?, c.isDigit = false) :
    scanUnsigned (Nat.toDigits 10 v ++ s) = some (v, s) := by
  obtain ⟨d, ds, hd⟩ := List.exists_cons_of_ne_nil (Nat.toDigits_ne_nil (n := v) (b := 10))
  have hdig : ∀ c ∈ Nat.toDigits 10 v, c.isDigit = true := fun c hc ↦ isDigit_of_mem_toDigits hc
  have hd' : d.isDigit = true := hdig d (hd ▸ List.mem_cons_self)
  have hrest : s.takeWhile Char.isDigit = [] ∧ s.dropWhile Char.isDigit = s := by
    cases s with
    | nil => simp
    | cons c s => simp_all
  have htake : (Nat.toDigits 10 v ++ s).takeWhile Char.isDigit = Nat.toDigits 10 v := by
    rw [List.takeWhile_append_of_pos hdig, hrest.1, List.append_nil]
  have hdrop : (Nat.toDigits 10 v ++ s).dropWhile Char.isDigit = s := by
    rw [List.dropWhile_append_of_pos hdig, hrest.2]
  have hspace : (Nat.toDigits 10 v ++ s).dropWhile isSpace = Nat.toDigits 10 v ++ s := by
    rw [hd, List.cons_append,
      List.dropWhile_cons_of_neg (by simp [isSpace_eq_false_of_isDigit hd'])]
  unfold scanUnsigned
  simp only [hspace]
  -- the first character is a digit, so there is no sign
  split
  next r h =>
    rw [hd, List.cons_append, List.cons.injEq] at h
    rw [h.1] at hd'
    exact absurd hd' (by decide)
  next r h =>
    rw [hd, List.cons_append, List.cons.injEq] at h
    rw [h.1] at hd'
    exact absurd hd' (by decide)
  next =>
    simp only [htake, hdrop, Nat.toDigits_ne_nil, if_false, digitsValue_toDigits,
      Bool.false_eq_true]
    rw [min_eq_left (by omega), Nat.mod_eq_of_lt hv]

@[simp] theorem sscanf_char_cons (c : Char) (fmt : List ScanDirective) (s : List Char) (pos : ℕ) :
    sscanf (.char c :: fmt) (c :: s) pos = sscanf fmt s (pos + 1) := by
  simp [sscanf]

theorem sscanf_space_cons {c : Char} (hc : isSpace c = true) (fmt : List ScanDirective)
    (s : List Char) (pos : ℕ) :
    sscanf (.space :: fmt) (c :: s) pos = sscanf (.space :: fmt) s (pos + 1) := by
  simp only [sscanf, List.dropWhile_cons_of_pos hc, List.takeWhile_cons_of_pos hc,
    List.length_cons]
  congr 1
  omega

theorem sscanf_space_of_head (hs : ∀ c ∈ s.head?, isSpace c = false) (fmt : List ScanDirective)
    (pos : ℕ) : sscanf (.space :: fmt) s pos = sscanf fmt s pos := by
  cases s with
  | nil => simp [sscanf]
  | cons c s =>
    have hc : isSpace c = false := hs c rfl
    rw [sscanf, List.dropWhile_cons_of_neg (p := isSpace) (by simp [hc]),
      List.takeWhile_cons_of_neg (p := isSpace) (by simp [hc]), List.length_nil, Nat.add_zero]

theorem sscanf_unsigned_toDigits (hv : v < 2 ^ 32) (hs : ∀ c ∈ s.head?, c.isDigit = false)
    (fmt : List ScanDirective) (pos : ℕ) :
    sscanf (.unsigned :: fmt) (Nat.toDigits 10 v ++ s) pos =
      .value v :: sscanf fmt s (pos + (Nat.toDigits 10 v).length) := by
  simp only [sscanf, scanUnsigned_toDigits hv hs, List.length_append]
  congr 2
  omega

theorem sscanf_space_char {c : Char} (hc : isSpace c = false) (fmt : List ScanDirective)
    (s : List Char) (pos : ℕ) :
    sscanf (.space :: .char c :: fmt) (' ' :: c :: s) pos = sscanf fmt s (pos + 1 + 1) := by
  rw [sscanf_space_cons (by decide), sscanf_space_of_head (by simpa using hc), sscanf_char_cons]

theorem sscanf_space_unsigned {c : Char} (hv : v < 2 ^ 32) (hc : c.isDigit = false)
    (fmt : List ScanDirective) (s : List Char) (pos : ℕ) :
    sscanf (.space :: .unsigned :: fmt) (' ' :: (Nat.toDigits 10 v ++ c :: s)) pos =
      .value v :: sscanf fmt (c :: s) (pos + 1 + (Nat.toDigits 10 v).length) := by
  rw [sscanf_space_cons (by decide), sscanf_space_of_head (head_toDigits_append _ _),
    sscanf_unsigned_toDigits hv (by simpa using hc)]

@[simp] theorem sscanf_count (fmt : List ScanDirective) (s : List Char) (pos : ℕ) :
    sscanf (.count :: fmt) s pos = .position pos :: sscanf fmt s pos :=
  rfl

theorem strsep_append_cons {delim : Char} {tok rest : List Char} (h : delim ∉ tok) :
    strsep delim (tok ++ delim :: rest) = (tok, some rest) := by
  have hne : ∀ c ∈ tok, decide (c ≠ delim) = true := fun c hc ↦
    decide_eq_true fun heq ↦ h (heq ▸ hc)
  unfold strsep
  rw [List.takeWhile_append_of_pos hne, List.dropWhile_append_of_pos hne]
  simp

theorem strsep_of_not_mem {delim : Char} (h : delim ∉ s) : strsep delim s = (s, none) := by
  have hne : ∀ c ∈ s, decide (c ≠ delim) = true := fun c hc ↦
    decide_eq_true fun heq ↦ h (heq ▸ hc)
  unfold strsep
  rw [List.takeWhile_eq_self_iff.mpr hne, List.dropWhile_eq_nil_iff.mpr hne]

/-- **A `strsep` loop over tokens joined by the delimiter gives the tokens back**, with enough
fuel. -/
theorem strsepAll_intercalate {delim : Char} :
    ∀ {tags : List (List Char)} {fuel : ℕ}, tags ≠ [] → (∀ t ∈ tags, delim ∉ t) →
      tags.length ≤ fuel → strsepAll delim fuel ([delim].intercalate tags) = tags
  | [], _, hne, _, _ => absurd rfl hne
  | [t], fuel + 1, _, h, _ => by
    rw [List.intercalate_singleton, strsepAll, strsep_of_not_mem (h t List.mem_cons_self)]
  | t :: t' :: ts, fuel + 1, _, h, hfuel => by
    rw [List.intercalate_cons_cons, List.append_assoc, List.singleton_append, strsepAll,
      strsep_append_cons (h t List.mem_cons_self)]
    dsimp only
    rw [strsepAll_intercalate (List.cons_ne_nil _ _) (fun u hu ↦ h u (List.mem_cons_of_mem _ hu))
        (by simp only [List.length_cons] at hfuel ⊢; omega)]
  | _ :: _, 0, _, _, hfuel => by simp at hfuel

end ReadBack

end CString
