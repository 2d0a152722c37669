import Mathlib.Data.List.Basic
import Mathlib.Data.List.DropRight
import Mathlib.Algebra.Group.Nat.Basic

/-!
# Decoding the gnark prover's proof

`decode_gnark_proof_to_bytes` reads the text the dockerized gnark prover answers with: ten
`0x` hex values between commas, possibly in double quotes. It trims the text, strips one quote
at each end, splits at commas, trims each value, drops its leading `0x`, parses it with
`U256::from_str_radix(_, 16)` and lays the values out as 32 big-endian bytes each. Strings are
lists of characters; a panic is an `Except.error` carrying the message.

The round trip: every text that renders ten values in this form decodes to their 320 bytes,
block by block.
-/

set_option autoImplicit false

namespace ProvingService.Onchain

/-! ## Rust string functions -/

/-- `char::is_whitespace`: the Unicode `White_Space` property. -/
def isWhitespace (c : Char) : Bool :=
  let n := c.toNat
  n == 0x20 || (0x09 ≤ n && n ≤ 0x0d) || n == 0x85 || n == 0xa0 || n == 0x1680 ||
    (0x2000 ≤ n && n ≤ 0x200a) || n == 0x2028 || n == 0x2029 || n == 0x202f || n == 0x205f ||
    n == 0x3000

/-- `str::trim`: whitespace dropped at both ends. -/
def trim (s : List Char) : List Char := (s.dropWhile isWhitespace).rdropWhile isWhitespace

/-- `s.strip_prefix(c)`. -/
def stripPrefixChar (c : Char) : List Char → Option (List Char)
  | c' :: rest => if c' = c then some rest else none
  | [] => none

/-- `s.strip_suffix(c)`. -/
def stripSuffixChar (c : Char) (s : List Char) : Option (List Char) :=
  if s.getLast? = some c then some s.dropLast else none

/-- `s.trim_start_matches("0x")`: every leading `0x` dropped. -/
def trimStartMatches0x : List Char → List Char
  | '0' :: 'x' :: rest => trimStartMatches0x rest
  | s => s

/-! ## `U256` -/

/-- The `ruint` errors of `U256::from_str_radix`. -/
inductive ParseError where
  | invalidDigit (c : Char)
  | invalidBaseDigit (digit base : Nat)
  | overflow
  deriving DecidableEq, Repr

/-- How `U256::from_str_radix` reads a character for a radix up to 36: `0-9`, `a-z` and `A-Z`
case-insensitively as digits, `_` skipped (`none`), anything else an error. -/
def radixDigit (c : Char) : Except ParseError (Option Nat) :=
  let n := c.toNat
  if 0x30 ≤ n ∧ n ≤ 0x39 then .ok (some (n - 0x30))
  else if 0x61 ≤ n ∧ n ≤ 0x7a then .ok (some (n - 0x61 + 10))
  else if 0x41 ≤ n ∧ n ≤ 0x5a then .ok (some (n - 0x41 + 10))
  else if c = '_' then .ok none
  else .error (.invalidDigit c)

/-- One character of `U256::from_str_radix`: the value so far times the radix plus the digit,
refused past `2^256`. -/
def radixStep (radix value : Nat) (c : Char) : Except ParseError Nat :=
  match radixDigit c with
  | .error e => .error e
  | .ok none => .ok value
  | .ok (some digit) =>
    if radix ≤ digit then .error (.invalidBaseDigit digit radix)
    else if value * radix + digit < 2 ^ 256 then .ok (value * radix + digit)
    else .error .overflow

/-- `U256::from_str_radix`, digits read from the left, stopping at the first error. -/
def fromStrRadix (src : List Char) (radix : Nat) : Except ParseError Nat :=
  src.foldlM (radixStep radix) 0

/-- The low `n` bytes of a value, most significant first. -/
def toBeBytes : Nat → Nat → List UInt8
  | 0, _ => []
  | n + 1, value => toBeBytes n (value / 256) ++ [UInt8.ofNat (value % 256)]

/-- `U256::to_be_bytes_vec`. -/
def toBeBytesVec (value : Nat) : List UInt8 := toBeBytes 32 value

/-- `U256::from_be_slice`. -/
def fromBeSlice (bytes : List UInt8) : Nat := bytes.foldl (fun acc b => acc * 256 + b.toNat) 0

/-- `bytes.chunks(size)`: consecutive blocks of `size` bytes, the last one possibly shorter. -/
def chunks (size : Nat) (bytes : List UInt8) : List (List UInt8) :=
  if bytes = [] ∨ size = 0 then [] else bytes.take size :: chunks size (bytes.drop size)
termination_by bytes.length
decreasing_by
  simp_wf
  have := List.length_pos.mpr (not_or.mp ‹_›).1
  omega

/-! ## The decoder -/

/-- The first lines of `decode_gnark_proof_to_bytes`: trim the text, then strip one double
quote at each end. -/
def unquote (proofText : List Char) : List Char :=
  let proofText := trim proofText
  let proofText := (stripPrefixChar '"' proofText).getD proofText
  (stripSuffixChar '"' proofText).getD proofText

/-- What `decode_gnark_proof_to_bytes` maps each value to: the value without its leading `0x`,
parsed as a `U256` in base 16, as 32 big-endian bytes. -/
def valueToBytes (value : List Char) : Except String (List UInt8) :=
  match fromStrRadix (trimStartMatches0x value) 16 with
  | .ok u256 => pure (toBeBytesVec u256)
  | .error _ => throw "failed to convert a hex string to an uint256"

/-- `decode_gnark_proof_to_bytes`. -/
def decodeGnarkProofToBytes (proofText : List Char) : Except String (List UInt8) := do
  let values := ((unquote proofText).splitOn ',').map trim
  if values.length ≠ 10 then throw "gnark proof must have 10 values"
  let blocks ← values.mapM valueToBytes
  let bytes := blocks.flatten
  if bytes.length ≠ 320 then throw "ten uint256 could only be converted to 320 bytes"
  pure bytes

/-! ## Text -/

section Text

variable {p : Char → Bool}

theorem intercalate_cons_of_ne_nil (x : Char) (first : List Char) {rest : List (List Char)}
    (more : rest ≠ []) : [x].intercalate (first :: rest) = first ++ x :: [x].intercalate rest := by
  obtain ⟨next, rest, rfl⟩ := List.exists_cons_of_ne_nil more
  simp [List.intercalate, List.intersperse_cons_cons]

theorem intercalate_append_singleton (x : Char) (init : List (List Char)) (last : List Char) :
    [x].intercalate (init ++ [last]) = (init.map (· ++ [x])).flatten ++ last := by
  induction init with
  | nil => simp [List.intercalate]
  | cons first init ih =>
    rw [List.cons_append, intercalate_cons_of_ne_nil _ _ (by simp), ih]
    simp

/-- Dropping from the right stops before a suffix it drops entirely. -/
theorem rdropWhile_append_of_all {s rest : List Char} (dropped : ∀ c ∈ rest, p c = true) :
    (s ++ rest).rdropWhile p = s.rdropWhile p := by
  simp only [List.rdropWhile, List.reverse_append]
  rw [List.dropWhile_append_of_pos (by simpa using dropped)]

/-- A text whose last character is kept is left whole by dropping from the right. -/
theorem rdropWhile_of_getLast {s : List Char} (kept : ∀ c ∈ s.getLast?, p c = false) :
    s.rdropWhile p = s := by
  rcases List.eq_nil_or_concat s with rfl | ⟨init, last, rfl⟩
  · rfl
  · rw [List.concat_eq_append] at kept ⊢
    exact List.rdropWhile_concat_neg _ _ _ (by simpa using kept)

/-- A text whose first character is kept is left whole by dropping from the left. -/
theorem dropWhile_of_head {s : List Char} (kept : ∀ c ∈ s.head?, p c = false) :
    s.dropWhile p = s := by
  cases s with
  | nil => rfl
  | cons c rest => exact List.dropWhile_cons_of_neg (by simpa using kept)

/-- Trimming a core that starts and ends with a non-blank character removes exactly the
whitespace around it. -/
theorem trim_padded {lead core trail : List Char}
    (leadBlank : ∀ c ∈ lead, isWhitespace c = true) (trailBlank : ∀ c ∈ trail, isWhitespace c = true)
    (nonempty : core ≠ []) (first : ∀ c ∈ core.head?, isWhitespace c = false)
    (last : ∀ c ∈ core.getLast?, isWhitespace c = false) :
    trim (lead ++ core ++ trail) = core := by
  have kept : (core ++ trail).dropWhile isWhitespace = core ++ trail :=
    dropWhile_of_head (by cases core with
      | nil => exact absurd rfl nonempty
      | cons c rest => simpa using first)
  rw [trim, List.append_assoc, List.dropWhile_append_of_pos leadBlank, kept,
    rdropWhile_append_of_all trailBlank, rdropWhile_of_getLast last]

example : trim " 0x1f\t".toList = "0x1f".toList := by decide

theorem trimStartMatches0x_of_not_x {s : List Char} (noX : ∀ c ∈ s, c ≠ 'x') :
    trimStartMatches0x s = s := by
  unfold trimStartMatches0x
  split
  · exact absurd rfl (noX 'x' (by simp))
  · rfl

end Text

/-! ## Hex digits and `U256` -/

/-- The value of a hexadecimal digit, `0-9`, `a-f` or `A-F`, as the prover renders them. -/
def hexDigitValue? (c : Char) : Option Nat :=
  let n := c.toNat
  if 0x30 ≤ n ∧ n ≤ 0x39 then some (n - 0x30)
  else if 0x61 ≤ n ∧ n ≤ 0x66 then some (n - 0x61 + 10)
  else if 0x41 ≤ n ∧ n ≤ 0x46 then some (n - 0x41 + 10)
  else none

/-- The number a string of hex digits stands for, most significant first. -/
def hexValue (digits : List Char) : Nat :=
  digits.foldl (fun value c => value * 16 + (hexDigitValue? c).getD 0) 0

section Digits

variable {c : Char} {digit : Nat}

/-- A hex digit is one `from_str_radix` reads as that digit, and it is none of the characters
the decoder splits, trims or strips at. -/
theorem hexDigitValue?_spec (hex : hexDigitValue? c = some digit) :
    radixDigit c = .ok (some digit) ∧ digit < 16 ∧ isWhitespace c = false ∧ c ≠ ',' ∧
      c ≠ '"' ∧ c ≠ 'x' := by
  have distinct : ∀ d : Char, c.toNat ≠ d.toNat → c ≠ d := fun d ne same => ne (same ▸ rfl)
  simp only [hexDigitValue?] at hex
  have range : (0x30 ≤ c.toNat ∧ c.toNat ≤ 0x39 ∨ 0x61 ≤ c.toNat ∧ c.toNat ≤ 0x66 ∨
      0x41 ≤ c.toNat ∧ c.toNat ≤ 0x46) ∧ digit < 16 := by
    split_ifs at hex <;> cases hex <;> omega
  refine ⟨?_, range.2, by simp [isWhitespace]; omega, distinct ',' (by simp; omega),
    distinct '"' (by simp; omega), distinct 'x' (by simp; omega)⟩
  simp only [radixDigit]
  split_ifs at hex with decimal lower upper <;> cases hex
  · exact if_pos decimal
  · rw [if_neg (by omega), if_pos (by omega)]
  · rw [if_neg (by omega), if_neg (by omega), if_pos (by omega)]

/-- Accumulating hex digits never goes below the value started from. -/
theorem le_foldl_hex (value : Nat) (digits : List Char) :
    value ≤ digits.foldl (fun value c => value * 16 + (hexDigitValue? c).getD 0) value := by
  induction digits generalizing value with
  | nil => exact le_rfl
  | cons c rest ih =>
    exact Nat.le_trans (show value ≤ value * 16 + (hexDigitValue? c).getD 0 by omega) (ih _)

/-- Hex digits after `value` stay below the next multiple of `16 ^ digits.length`. -/
theorem foldl_hex_lt (value : Nat) {digits : List Char}
    (hex : ∀ c ∈ digits, (hexDigitValue? c).isSome) :
    digits.foldl (fun value c => value * 16 + (hexDigitValue? c).getD 0) value <
      (value + 1) * 16 ^ digits.length := by
  induction digits generalizing value with
  | nil => simp
  | cons c rest ih =>
    obtain ⟨digit, read⟩ := Option.isSome_iff_exists.mp (hex c (.head _))
    have small := (hexDigitValue?_spec read).2.1
    calc _ < (value * 16 + digit + 1) * 16 ^ rest.length := by
            simpa [read] using ih (value * 16 + digit) fun c member => hex c (.tail _ member)
      _ ≤ (value + 1) * 16 * 16 ^ rest.length := Nat.mul_le_mul_right _ (by omega)
      _ = (value + 1) * 16 ^ (c :: rest).length := by
            rw [List.length_cons, Nat.pow_succ, Nat.mul_comm (16 ^ _), Nat.mul_assoc]

/-- A value of at most 64 hex digits fits in a `U256`. -/
theorem hexValue_lt {digits : List Char} (hex : ∀ c ∈ digits, (hexDigitValue? c).isSome)
    (short : digits.length ≤ 64) : hexValue digits < 2 ^ 256 :=
  calc hexValue digits < (0 + 1) * 16 ^ digits.length := foldl_hex_lt 0 hex
    _ ≤ 16 ^ 64 := by rw [Nat.zero_add, Nat.one_mul]; exact Nat.pow_le_pow_right (by decide) short
    _ = 2 ^ 256 := by decide

/-- `from_str_radix(_, 16)` reads hex digits as `hexValue` does while the value fits. -/
theorem foldlM_radixStep (value : Nat) {digits : List Char}
    (hex : ∀ c ∈ digits, (hexDigitValue? c).isSome)
    (fits : digits.foldl (fun value c => value * 16 + (hexDigitValue? c).getD 0) value < 2 ^ 256) :
    digits.foldlM (radixStep 16) value =
      .ok (digits.foldl (fun value c => value * 16 + (hexDigitValue? c).getD 0) value) := by
  induction digits generalizing value with
  | nil => rfl
  | cons c rest ih =>
    obtain ⟨digit, read⟩ := Option.isSome_iff_exists.mp (hex c (.head _))
    obtain ⟨radix, small, -⟩ := hexDigitValue?_spec read
    simp only [List.foldl_cons, read, Option.getD_some] at fits ⊢
    have step : radixStep 16 value c = .ok (value * 16 + digit) := by
      have below := Nat.lt_of_le_of_lt (le_foldl_hex (value * 16 + digit) rest) fits
      simp only [radixStep, radix, show ¬ 16 ≤ digit by omega, if_false]
      exact if_pos below
    rw [List.foldlM_cons, step]
    exact ih _ (fun c member => hex c (.tail _ member)) fits

/-- One to 64 hex digits parse to their value. -/
theorem fromStrRadix_hex {digits : List Char} (hex : ∀ c ∈ digits, (hexDigitValue? c).isSome)
    (short : digits.length ≤ 64) : fromStrRadix digits 16 = .ok (hexValue digits) :=
  foldlM_radixStep 0 hex (hexValue_lt hex short)

end Digits

/-- A step of `from_str_radix` that succeeds stays below `2^256`. -/
theorem radixStep_lt {radix value next : Nat} {c : Char} (small : value < 2 ^ 256)
    (step : radixStep radix value c = .ok next) : next < 2 ^ 256 := by
  unfold radixStep at step
  split at step
  · cases step
  · cases step
    exact small
  · split_ifs at step with _ fits
    cases step
    exact fits

/-- `from_str_radix` reads only values below `2^256`. -/
theorem foldlM_radixStep_lt {radix : Nat} :
    ∀ {src : List Char} {value result : Nat}, value < 2 ^ 256 →
      src.foldlM (radixStep radix) value = .ok result → result < 2 ^ 256
  | [], _, _, small, read => by
    cases read
    exact small
  | c :: rest, value, result, small, read => by
    rw [List.foldlM_cons] at read
    cases step : radixStep radix value c with
    | error failure =>
      rw [step] at read
      cases read
    | ok next =>
      rw [step] at read
      exact foldlM_radixStep_lt (radixStep_lt small step) read

/-- The bytes of `to_be_bytes_vec` come out as many as asked for. -/
@[simp] theorem length_toBeBytes (n value : Nat) : (toBeBytes n value).length = n := by
  induction n generalizing value with
  | zero => rfl
  | succ n ih => simp [toBeBytes, ih]

/-- Reading big-endian bytes back gives the value they were cut from, below `256 ^ n`. -/
theorem fromBeSlice_toBeBytes (n value : Nat) :
    fromBeSlice (toBeBytes n value) = value % 256 ^ n := by
  induction n generalizing value with
  | zero => simp [toBeBytes, fromBeSlice, Nat.mod_one]
  | succ n ih =>
    have low : (UInt8.ofNat (value % 256)).toNat = value % 256 :=
      UInt8.toNat_ofNat_of_lt (Nat.mod_lt _ (by decide))
    have ih' := ih (value / 256)
    simp only [fromBeSlice] at ih'
    simp only [fromBeSlice, toBeBytes, List.foldl_append, List.foldl_cons, List.foldl_nil, ih', low,
      Nat.pow_succ', Nat.mod_mul]
    omega

/-- The first of `n + 1` big-endian bytes is the one `256 ^ n` counts. -/
theorem toBeBytes_succ (n value : Nat) :
    toBeBytes (n + 1) value = UInt8.ofNat (value / 256 ^ n % 256) :: toBeBytes n value := by
  induction n generalizing value with
  | zero => simp [toBeBytes]
  | succ n ih => rw [toBeBytes, ih, toBeBytes, Nat.div_div_eq_div_mul, ← Nat.pow_succ', List.cons_append]

/-- `n` big-endian bytes see only the value below `256 ^ n`. -/
theorem toBeBytes_mod (n value : Nat) : toBeBytes n (value % 256 ^ n) = toBeBytes n value := by
  induction n generalizing value with
  | zero => rfl
  | succ n ih =>
    rw [toBeBytes, toBeBytes, Nat.pow_succ', Nat.mod_mul_right_div_self, ih, Nat.mod_mul_right_mod]

theorem foldl_fromBeSlice (acc : Nat) (bytes : List UInt8) :
    bytes.foldl (fun acc b => acc * 256 + b.toNat) acc = acc * 256 ^ bytes.length + fromBeSlice bytes := by
  induction bytes generalizing acc with
  | nil => simp [fromBeSlice]
  | cons byte rest ih =>
    simp only [fromBeSlice, List.foldl_cons] at ih ⊢
    rw [ih, ih (0 * 256 + byte.toNat), List.length_cons, Nat.pow_succ]
    simp only [Nat.zero_mul, Nat.zero_add, Nat.add_mul, Nat.mul_assoc, Nat.mul_comm 256, Nat.add_assoc]

theorem fromBeSlice_cons (byte : UInt8) (rest : List UInt8) :
    fromBeSlice (byte :: rest) = 256 ^ rest.length * byte.toNat + fromBeSlice rest := by
  rw [fromBeSlice, List.foldl_cons, foldl_fromBeSlice, Nat.zero_mul, Nat.zero_add, Nat.mul_comm]

/-- Big-endian bytes come back from the value they encode, and that value is below
`256 ^ length`. -/
theorem toBeBytes_fromBeSlice (bytes : List UInt8) :
    toBeBytes bytes.length (fromBeSlice bytes) = bytes ∧ fromBeSlice bytes < 256 ^ bytes.length := by
  induction bytes with
  | nil => exact ⟨rfl, Nat.one_pos⟩
  | cons byte rest ih =>
    have positive : 0 < 256 ^ rest.length := Nat.pos_pow_of_pos _ (by decide)
    have top : (256 ^ rest.length * byte.toNat + fromBeSlice rest) / 256 ^ rest.length = byte.toNat := by
      rw [Nat.mul_add_div positive, Nat.div_eq_of_lt ih.2, Nat.add_zero]
    have low := byte.toNat_lt_size
    refine ⟨?_, ?_⟩
    · rw [List.length_cons, toBeBytes_succ, fromBeSlice_cons, top, Nat.mod_eq_of_lt low,
        ← toBeBytes_mod, Nat.mul_add_mod, toBeBytes_mod, ih.1]
      exact congrArg (· :: rest) (UInt8.toNat.inj (UInt8.toNat_ofNat_of_lt low))
    · rw [fromBeSlice_cons, List.length_cons, Nat.pow_succ]
      have : byte.toNat ≤ 255 := Nat.le_of_lt_succ low
      calc 256 ^ rest.length * byte.toNat + fromBeSlice rest
          < 256 ^ rest.length * byte.toNat + 256 ^ rest.length := Nat.add_lt_add_left ih.2 _
        _ = 256 ^ rest.length * (byte.toNat + 1) := by rw [Nat.mul_succ]
        _ ≤ 256 ^ rest.length * 256 := Nat.mul_le_mul_left _ (by omega)

/-- `bytes.chunks(size)` cuts blocks of `size` bytes laid end to end back apart. -/
theorem chunks_flatten {size : Nat} {blocks : List (List UInt8)} (positive : 0 < size)
    (sized : ∀ block ∈ blocks, block.length = size) : chunks size blocks.flatten = blocks := by
  induction blocks with
  | nil => rw [chunks]; simp
  | cons block blocks ih =>
    have length := sized block (.head _)
    have nonempty : block ≠ [] := List.ne_nil_of_length_pos (by omega)
    rw [chunks, if_neg (by simp [nonempty]; omega), List.flatten_cons, List.take_left' length,
      List.drop_left' length, ih fun block member => sized block (.tail _ member)]

/-- A value below `2^256` comes back from its 32 big-endian bytes. -/
theorem fromBeSlice_toBeBytesVec {value : Nat} (small : value < 2 ^ 256) :
    fromBeSlice (toBeBytesVec value) = value := by
  rw [toBeBytesVec, fromBeSlice_toBeBytes]
  exact Nat.mod_eq_of_lt (small.trans_eq (by decide))

/-- Values below `2^256` come back from their blocks, one by one. -/
theorem map_fromBeSlice_toBeBytesVec {values : List Nat}
    (small : ∀ value ∈ values, value < 2 ^ 256) : (values.map toBeBytesVec).map fromBeSlice = values := by
  induction values with
  | nil => rfl
  | cons value values ih =>
    rw [List.map_cons, List.map_cons, fromBeSlice_toBeBytesVec (small value (.head _)),
      ih fun value member => small value (.tail _ member)]

theorem length_flatten_toBeBytesVec (values : List Nat) :
    (values.map toBeBytesVec).flatten.length = 32 * values.length := by
  induction values with
  | nil => rfl
  | cons value values ih =>
    rw [List.map_cons, List.flatten_cons, List.length_append, ih, toBeBytesVec, length_toBeBytes,
      List.length_cons]
    omega

/-! ## The prover's text -/

/-- One value as the prover renders it: `0x` and one to 64 hex digits, with whitespace
around. -/
structure Field where
  lead : List Char
  digits : List Char
  trail : List Char
  leadBlank : ∀ c ∈ lead, isWhitespace c = true
  trailBlank : ∀ c ∈ trail, isWhitespace c = true
  hex : ∀ c ∈ digits, (hexDigitValue? c).isSome
  nonempty : digits ≠ []
  short : digits.length ≤ 64

namespace Field

/-- The value without the whitespace around it. -/
def core (field : Field) : List Char := '0' :: 'x' :: field.digits

def text (field : Field) : List Char := field.lead ++ field.core ++ field.trail

def value (field : Field) : Nat := hexValue field.digits

/-- The field with the whitespace before it dropped. -/
def dropLead (field : Field) : Field := { field with lead := [], leadBlank := by simp }

/-- The field with the whitespace after it dropped. -/
def dropTrail (field : Field) : Field := { field with trail := [], trailBlank := by simp }

theorem value_lt (field : Field) : field.value < 2 ^ 256 := hexValue_lt field.hex field.short

theorem digit_spec (field : Field) {c : Char} (member : c ∈ field.digits) :
    isWhitespace c = false ∧ c ≠ ',' ∧ c ≠ '"' ∧ c ≠ 'x' := by
  obtain ⟨digit, read⟩ := Option.isSome_iff_exists.mp (field.hex c member)
  exact (hexDigitValue?_spec read).2.2

theorem core_getLast (field : Field) : ∀ c ∈ field.core.getLast?, isWhitespace c = false := by
  intro c last
  rw [core, show '0' :: 'x' :: field.digits = ['0', 'x'] ++ field.digits from rfl,
    List.getLast?_append_of_ne_nil _ field.nonempty] at last
  exact (field.digit_spec (List.mem_of_getLast?_eq_some last)).1

theorem trim_text (field : Field) : trim field.text = field.core :=
  trim_padded field.leadBlank field.trailBlank (by simp [core]) (by simp [core]; decide)
    field.core_getLast

theorem comma_not_mem_text (field : Field) : ',' ∉ field.text := by
  have blank : isWhitespace ',' = false := by decide
  simp only [text, core, List.mem_append, List.mem_cons, not_or]
  refine ⟨⟨fun lead => ?_, by decide, by decide, fun digit => (field.digit_spec digit).2.1 rfl⟩,
    fun trail => ?_⟩
  · simpa [blank] using field.leadBlank _ lead
  · simpa [blank] using field.trailBlank _ trail

theorem valueToBytes_core (field : Field) :
    valueToBytes field.core = .ok (toBeBytesVec field.value) := by
  have noX : ∀ c ∈ field.digits, c ≠ 'x' := fun _ member => (field.digit_spec member).2.2.2
  rw [valueToBytes, core, trimStartMatches0x, trimStartMatches0x_of_not_x noX,
    fromStrRadix_hex field.hex field.short]
  rfl

end Field

/-- The prover's answer: ten values between commas, in double quotes or not, with whitespace
around. -/
structure ProofText where
  lead : List Char
  quoted : Bool
  fields : List Field
  trail : List Char
  leadBlank : ∀ c ∈ lead, isWhitespace c = true
  trailBlank : ∀ c ∈ trail, isWhitespace c = true
  ten : fields.length = 10

/-- Values between commas. -/
def body (fields : List Field) : List Char := [','].intercalate (fields.map Field.text)

namespace ProofText

def render (text : ProofText) : List Char :=
  text.lead ++ (if text.quoted then '"' :: body text.fields ++ ['"'] else body text.fields) ++
    text.trail

end ProofText

section Body

variable {fields : List Field}

/-- Splitting values between commas at the commas and trimming each gives their cores back. -/
theorem splitOn_body (nonempty : fields ≠ []) :
    ((body fields).splitOn ',').map trim = fields.map Field.core := by
  rw [body, List.splitOn_intercalate _ _ (by simpa using fun field _ => field.comma_not_mem_text)
    (by simpa using nonempty), List.map_map]
  exact List.map_congr_left fun field _ => field.trim_text

/-- Whitespace dropped from the front of values between commas comes off the first value. -/
theorem dropWhile_body (nonempty : fields ≠ []) :
    ∃ fields', (body fields).dropWhile isWhitespace = body fields' ∧
      fields'.map Field.core = fields.map Field.core := by
  obtain ⟨field, rest, rfl⟩ := List.exists_cons_of_ne_nil nonempty
  refine ⟨field.dropLead :: rest, ?_, rfl⟩
  have drop : ∀ after : List Char,
      (field.text ++ after).dropWhile isWhitespace = field.dropLead.text ++ after := fun after => by
    rw [Field.text, List.append_assoc, List.append_assoc,
      List.dropWhile_append_of_pos field.leadBlank, Field.core, List.cons_append,
      List.dropWhile_cons_of_neg (by decide)]
    simp [Field.dropLead, Field.text, Field.core]
  cases rest with
  | nil => simpa [body, List.intercalate] using drop []
  | cons next rest =>
    have more : (next :: rest).map Field.text ≠ [] := by simp
    rw [body, body, List.map_cons _ field, List.map_cons _ field.dropLead,
      intercalate_cons_of_ne_nil _ _ more, intercalate_cons_of_ne_nil _ _ more]
    exact drop _

/-- Whitespace dropped from the back of values between commas comes off the last value. -/
theorem rdropWhile_body (nonempty : fields ≠ []) :
    ∃ fields', (body fields).rdropWhile isWhitespace = body fields' ∧
      fields'.map Field.core = fields.map Field.core := by
  obtain ⟨init, field, rfl⟩ : ∃ init field, fields = init ++ [field] := by
    rcases List.eq_nil_or_concat fields with empty | ⟨init, field, split⟩
    · exact absurd empty nonempty
    · exact ⟨init, field, by simpa using split⟩
  refine ⟨init ++ [field.dropTrail], ?_, by rw [List.map_append, List.map_append]; rfl⟩
  rw [body, body, List.map_append, List.map_append, List.map_singleton, List.map_singleton,
    intercalate_append_singleton, intercalate_append_singleton, Field.text, ← List.append_assoc,
    rdropWhile_append_of_all field.trailBlank, rdropWhile_of_getLast]
  · simp [Field.dropTrail, Field.text, Field.core]
  · rw [List.getLast?_append_of_ne_nil _ (by simp [Field.core]),
      List.getLast?_append_of_ne_nil _ (by simp [Field.core])]
    exact field.core_getLast

/-- Every character between commas is a comma or a character of a value's text. -/
theorem mem_body {c : Char} (member : c ∈ body fields) : c = ',' ∨ ∃ field ∈ fields, c ∈ field.text := by
  induction fields with
  | nil => simp [body, List.intercalate] at member
  | cons field rest ih =>
    cases rest with
    | nil => exact .inr ⟨field, .head _, by simpa [body, List.intercalate] using member⟩
    | cons next rest =>
      rw [body, List.map_cons _ field, intercalate_cons_of_ne_nil _ _ (by simp)] at member
      rcases List.mem_append.mp member with own | later
      · exact .inr ⟨field, .head _, own⟩
      · rcases List.mem_cons.mp later with comma | later
        · exact .inl comma
        · rcases ih later with comma | ⟨other, mem, inText⟩
          · exact .inl comma
          · exact .inr ⟨other, .tail _ mem, inText⟩

theorem quote_not_mem_body : '"' ∉ body fields := fun member => by
  have blank : isWhitespace '"' = false := by decide
  rcases mem_body member with comma | ⟨field, -, inText⟩
  · cases comma
  · simp only [Field.text, Field.core, List.mem_append, List.mem_cons] at inText
    rcases inText with ((lead | zero | x | digit) | trail)
    · simpa [blank] using field.leadBlank _ lead
    · cases zero
    · cases x
    · exact (field.digit_spec digit).2.2.1 rfl
    · simpa [blank] using field.trailBlank _ trail

theorem body_ne_nil (nonempty : fields ≠ []) : body fields ≠ [] := by
  obtain ⟨field, rest, rfl⟩ := List.exists_cons_of_ne_nil nonempty
  cases rest with
  | nil => simp [body, List.intercalate, Field.text, Field.core]
  | cons next rest =>
    rw [body, List.map_cons _ field, intercalate_cons_of_ne_nil _ _ (by simp)]
    simp [Field.text, Field.core]

end Body

theorem stripPrefixChar_of_not_mem {c : Char} {s : List Char} (absent : c ∉ s) :
    stripPrefixChar c s = none := by
  cases s with
  | nil => rfl
  | cons first rest => simp [stripPrefixChar, show first ≠ c from fun same => absent (same ▸ .head _)]

theorem stripSuffixChar_of_not_mem {c : Char} {s : List Char} (absent : c ∉ s) :
    stripSuffixChar c s = none := by
  rw [stripSuffixChar, if_neg fun last => absent (List.mem_of_getLast?_eq_some last)]

/-- Trimmed and unquoted, the prover's text is its values between commas, the first and the last
perhaps without the whitespace outside them. -/
theorem unquote_render (text : ProofText) :
    ∃ fields, unquote text.render = body fields ∧ fields.map Field.core = text.fields.map Field.core := by
  have nonempty : text.fields ≠ [] := List.ne_nil_of_length_pos (by rw [text.ten]; decide)
  cases quoted : text.quoted with
  | true =>
    refine ⟨text.fields, ?_, rfl⟩
    have trimmed : trim text.render = '"' :: (body text.fields ++ ['"']) := by
      rw [ProofText.render, quoted, if_pos rfl]
      have quote : isWhitespace '"' = false := by decide
      have last : ('"' :: body text.fields ++ ['"']).getLast? = some '"' := by
        rw [List.getLast?_append_of_ne_nil _ (List.cons_ne_nil _ _)]
        rfl
      exact trim_padded text.leadBlank text.trailBlank (by simp) (by simp [quote])
        fun c member => by rw [last] at member; cases member; exact quote
    simp [unquote, trimmed, stripPrefixChar, stripSuffixChar]
  | false =>
    obtain ⟨front, dropped, frontCores⟩ := dropWhile_body nonempty
    have frontNonempty : front ≠ [] := fun empty => nonempty (by simpa [empty] using frontCores.symm)
    obtain ⟨fields, trimmed, cores⟩ := rdropWhile_body frontNonempty
    have whole : trim text.render = body fields := by
      rw [ProofText.render, quoted, if_neg Bool.false_ne_true, trim, List.append_assoc,
        List.dropWhile_append_of_pos text.leadBlank, List.dropWhile_append, dropped,
        if_neg (by simpa using body_ne_nil frontNonempty), rdropWhile_append_of_all text.trailBlank,
        trimmed]
    refine ⟨fields, ?_, cores.trans frontCores⟩
    rw [unquote]
    simp only [whole, stripPrefixChar_of_not_mem quote_not_mem_body, Option.getD_none,
      stripSuffixChar_of_not_mem quote_not_mem_body]

theorem mapM_valueToBytes (fields : List Field) :
    (fields.map Field.core).mapM valueToBytes =
      .ok (fields.map fun field => toBeBytesVec field.value) := by
  induction fields with
  | nil => rfl
  | cons field fields ih =>
    rw [List.map_cons, List.mapM_cons, field.valueToBytes_core, ih]
    rfl

theorem length_flatten_blocks (fields : List Field) :
    (fields.map fun field => toBeBytesVec field.value).flatten.length = 32 * fields.length := by
  rw [← List.length_map fields Field.value, ← length_flatten_toBeBytesVec, List.map_map]
  rfl

/-- The decoder succeeds when the text holds ten values that all parse, into the bytes of the
ten values laid end to end. -/
theorem decodeGnarkProofToBytes_ok {proofText : List Char} {blocks : List (List UInt8)}
    (ten : (((unquote proofText).splitOn ',').map trim).length = 10)
    (parsed : (((unquote proofText).splitOn ',').map trim).mapM valueToBytes = .ok blocks)
    (full : blocks.flatten.length = 320) :
    decodeGnarkProofToBytes proofText = .ok blocks.flatten := by
  simp only [decodeGnarkProofToBytes, ten, parsed]
  simp [bind, Except.bind, pure, Except.pure, full]

/-- A rendered text decodes to the 32-byte encodings of its ten values, laid end to end. -/
theorem decodeGnarkProofToBytes_render (text : ProofText) :
    decodeGnarkProofToBytes text.render = .ok (text.fields.map fun field => toBeBytesVec field.value).flatten ∧
      (text.fields.map fun field => toBeBytesVec field.value).flatten.length = 320 := by
  obtain ⟨fields, unquoted, cores⟩ := unquote_render text
  have nonempty : fields ≠ [] := fun empty => by
    have := congrArg List.length cores
    simp [empty, text.ten] at this
  have values : ((unquote text.render).splitOn ',').map trim = text.fields.map Field.core := by
    rw [unquoted, splitOn_body nonempty, cores]
  have length := length_flatten_blocks text.fields
  rw [text.ten] at length
  exact ⟨decodeGnarkProofToBytes_ok (by rw [values, List.length_map, text.ten])
    (by rw [values, mapM_valueToBytes]) length, length⟩

/-- Every text that renders ten values as `0x` and one to 64 hex digits each, between commas,
with whitespace around the values and around the whole, in double quotes or not, decodes to
320 bytes: block `i` of 32 is the big-endian encoding of value `i`, and reading the blocks back
gives the ten values. -/
theorem decode_rendered (text : ProofText) :
    ∃ bytes, decodeGnarkProofToBytes text.render = .ok bytes ∧ bytes.length = 320 ∧
      chunks 32 bytes = text.fields.map (fun field => toBeBytesVec field.value) ∧
      (chunks 32 bytes).map fromBeSlice = text.fields.map Field.value := by
  obtain ⟨decoded, length⟩ := decodeGnarkProofToBytes_render text
  have sized : ∀ block ∈ text.fields.map (fun field => toBeBytesVec field.value),
      block.length = 32 := by simp [toBeBytesVec]
  refine ⟨_, decoded, length, chunks_flatten (by decide) sized, ?_⟩
  rw [chunks_flatten (by decide) sized, List.map_map]
  refine List.map_congr_left fun field _ => ?_
  simp only [Function.comp, toBeBytesVec, fromBeSlice_toBeBytes]
  exact Nat.mod_eq_of_lt (by simpa using field.value_lt)

/-! ## What the decoder accepts -/

/-- The pieces `decode_gnark_proof_to_bytes` reads values from: the unquoted text cut at
commas, each piece trimmed. -/
def pieces (proofText : List Char) : List (List Char) := ((unquote proofText).splitOn ',').map trim

/-- The values `U256::from_str_radix` reads from pieces, each without its leading `0x`. -/
def readValues (pieces : List (List Char)) : Except ParseError (List Nat) :=
  pieces.mapM fun piece => fromStrRadix (trimStartMatches0x piece) 16

/-- The blocks of the `flat_map`: a piece `from_str_radix` cannot read stops it with the
`expect` message; otherwise they encode the values read, one per piece, each below `2^256`. -/
theorem mapM_valueToBytes_cases (pieces : List (List Char)) :
    (∃ failure, readValues pieces = .error failure) ∧
      pieces.mapM valueToBytes = .error "failed to convert a hex string to an uint256" ∨
    ∃ values, readValues pieces = .ok values ∧ values.length = pieces.length ∧
      (∀ value ∈ values, value < 2 ^ 256) ∧
      pieces.mapM valueToBytes = .ok (values.map toBeBytesVec) := by
  induction pieces with
  | nil => exact .inr ⟨[], rfl, rfl, by simp, rfl⟩
  | cons piece pieces ih =>
    unfold readValues at ih ⊢
    rw [List.mapM_cons, List.mapM_cons]
    cases read : fromStrRadix (trimStartMatches0x piece) 16 with
    | error failure => exact .inl ⟨⟨failure, rfl⟩, by rw [valueToBytes, read]; rfl⟩
    | ok value =>
      rcases ih with ⟨⟨failure, failed⟩, stopped⟩ | ⟨values, readAll, length, small, blocks⟩
      · refine .inl ⟨⟨failure, ?_⟩, ?_⟩
        · rw [failed]; rfl
        · rw [valueToBytes, read, stopped]; rfl
      · refine .inr ⟨value :: values, ?_, by simp [length], ?_, ?_⟩
        · rw [readAll]; rfl
        · intro member mem
          rcases List.mem_cons.mp mem with rfl | later
          · exact foldlM_radixStep_lt (Nat.two_pow_pos _) read
          · exact small _ later
        · rw [valueToBytes, read, blocks]; rfl

/-- Whatever text it is given, the decoder refuses a count of values other than ten, refuses a
value `from_str_radix` cannot read, or returns the 32-byte big-endian encodings of the ten
values it read, laid end to end: 320 bytes, which `chunks(32)` and `from_be_slice` read back
into those values. Its check of the 320 bytes never fails. -/
theorem decode_outcomes (proofText : List Char) :
    (pieces proofText).length ≠ 10 ∧
      decodeGnarkProofToBytes proofText = .error "gnark proof must have 10 values" ∨
    (pieces proofText).length = 10 ∧ (∃ failure, readValues (pieces proofText) = .error failure) ∧
      decodeGnarkProofToBytes proofText = .error "failed to convert a hex string to an uint256" ∨
    ∃ values, readValues (pieces proofText) = .ok values ∧ values.length = 10 ∧
      decodeGnarkProofToBytes proofText = .ok (values.map toBeBytesVec).flatten ∧
      (values.map toBeBytesVec).flatten.length = 320 ∧
      (chunks 32 (values.map toBeBytesVec).flatten).map fromBeSlice = values := by
  by_cases ten : (pieces proofText).length = 10
  · rcases mapM_valueToBytes_cases (pieces proofText) with
      ⟨failed, stopped⟩ | ⟨values, read, length, small, blocks⟩
    · refine .inr (.inl ⟨ten, failed, ?_⟩)
      unfold pieces at ten stopped
      simp only [decodeGnarkProofToBytes, ten, stopped]
      rfl
    · have count : values.length = 10 := length.trans ten
      have full : (values.map toBeBytesVec).flatten.length = 320 := by
        rw [length_flatten_toBeBytesVec, count]
      refine .inr (.inr ⟨values, read, count, decodeGnarkProofToBytes_ok ten blocks full, full, ?_⟩)
      rw [chunks_flatten (by decide) (by simp [toBeBytesVec])]
      exact map_fromBeSlice_toBeBytesVec small
  · refine .inl ⟨ten, ?_⟩
    unfold pieces at ten
    simp only [decodeGnarkProofToBytes, ne_eq, ten, not_false_eq_true, if_true]
    simp only [bind, Except.bind, throw, throwThe, MonadExceptOf.throw]

end ProvingService.Onchain
