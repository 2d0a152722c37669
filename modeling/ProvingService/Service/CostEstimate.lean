import ProvingService.Service.Results
import ProvingService.Onchain.GnarkProof
import Mathlib.Data.Nat.Digits

/-!
# Cost estimation

`estimate_cost` runs the emulation inside `catch_unwind`. With the cost estimator on, the cost
is the sum of every report's host-cycle estimates as a `usize`, which wraps in a release build
and panics on overflow where overflow checks are on, and a report without an estimator panics;
otherwise the cost is the cycle count. `usize` is 64 bits wide, as `u64`. The public-value digest is the SHA-256 digest of the
public-value stream read as a big-endian `U256` and masked to its low 253 bits. An emulation
error becomes a `PicoError` by `From`, and a caught panic becomes an internal error.
`GrpcService::estimate_cost` finds the app with `get_app`, whose read of the table may fail,
runs `estimate_cost` with the cost
estimator on, and answers the digest as 32 big-endian bytes, or the error as the response
`From<PicoError>` builds. The emulation and the hash are `pico_vm`'s and `sha2`'s, and are
parameters here.
-/

set_option autoImplicit false

namespace ProvingService.Cost

open Onchain

/-- `EmulationError`, as `From<EmulationError> for PicoError` reads it: the cycle limit, or
any other error by its text. -/
inductive EmulationError where
  | exceededCycleLimit (cycles : Nat)
  | other (text : List Char)
  deriving DecidableEq, Repr

/-- `PicoError`. -/
inductive PicoError where
  | exceededCycleLimit (cycles : Nat)
  | internalError (message : List Char)
  deriving DecidableEq, Repr

namespace PicoError

/-- `PicoError`'s `Display`, from its `#[error]` attributes. -/
def toString : PicoError → List Char
  | .exceededCycleLimit cycles => "input exceeded cycle limit of ".toList ++ (Nat.repr cycles).toList
  | .internalError message => "internal error: ".toList ++ message

/-- `From<EmulationError> for PicoError`. -/
def ofEmulationError : EmulationError → PicoError
  | .exceededCycleLimit cycles => .exceededCycleLimit cycles
  | .other text => .internalError text

end PicoError

/-- `ErrCode`, the two codes the service answers with. -/
inductive ErrCode where
  | inputExceeded
  | internal
  deriving DecidableEq, Repr

/-- `ErrMsg`. -/
structure ErrMsg where
  code : ErrCode
  msg : Option (List Char)
  deriving DecidableEq, Repr

/-- `EstimateCostResponse`. -/
structure EstimateCostResponse where
  err : Option ErrMsg
  cost : Nat
  pvDigest : List UInt8
  deriving DecidableEq, Repr

/-- `From<PicoError> for EstimateCostResponse`. -/
def EstimateCostResponse.ofPicoError (e : PicoError) : EstimateCostResponse :=
  match e with
  | .exceededCycleLimit _ => ⟨some ⟨.inputExceeded, some e.toString⟩, 0, []⟩
  | .internalError _ => ⟨some ⟨.internal, some e.toString⟩, 0, []⟩

/-- The `[u8; 32]` that `sha256` returns. -/
structure Digest where
  bytes : List UInt8
  sized : bytes.length = 32

/-- `EstimatedInfo`. -/
structure EstimatedInfo where
  cost : Nat
  totalCycles : Nat
  pvDigest : Nat
  deriving DecidableEq, Repr

/-- `(U256::ONE << 253) - U256::ONE`. -/
def pvDigestMask : Nat := (1 <<< 253) - 1

/-- `U256::from_be_bytes(sha256(&pv_stream))` with the mask applied. -/
def pvDigest (digest : Digest) : Nat := fromBeSlice digest.bytes &&& pvDigestMask

/-- What `emulate_snapshot_pipeline` returns, as `estimate_cost` reads it. -/
structure Emulated where
  /-- For each report, the estimates of its `host_cycle_estimator` under the fixture model,
  or `none` where the report has none. -/
  estimates : List (Option (List Nat))
  totalCycles : Nat
  pvStream : List UInt8
  deriving DecidableEq, Repr

/-- The message a caught panic is reported with: `{e:?}` of the payload box. -/
def panicMessage : List Char := "panic during cost estimation Any \x7b .. \x7d".toList

/-- `Iterator::sum::<usize>()` from a running total: each addition wraps modulo `2 ^ 64` in a
release build, and panics (`none`) where overflow checks are on, as in a debug build. -/
def sumUsize (overflowChecks : Bool) : Nat → List Nat → Option Nat
  | acc, [] => some acc
  | acc, value :: rest =>
    if overflowChecks && 2 ^ 64 ≤ acc + value then none
    else sumUsize overflowChecks ((acc + value) % 2 ^ 64) rest

/-- The sum of the estimates, with no bound. -/
def total (values : List Nat) : Nat := values.foldr (· + ·) 0

/-- `estimate_cost`. `emulated` is the result of `emulate_snapshot_pipeline`, or `none` where
the closure panics before it returns (an `inputs` that `bincode` cannot read). -/
def estimateCost (sha256 : List UInt8 → Digest) (overflowChecks costEstimator : Bool)
    (emulated : Option (Except EmulationError Emulated)) : Except PicoError EstimatedInfo :=
  match emulated with
  | none => .error (.internalError panicMessage)
  | some (.error e) => .error (.ofEmulationError e)
  | some (.ok run) =>
    let cost := if costEstimator then
        (run.estimates.mapM id).bind fun reports => sumUsize overflowChecks 0 reports.flatten
      else some run.totalCycles
    match cost with
    | none => .error (.internalError panicMessage)
    | some cost => .ok ⟨cost, run.totalCycles, pvDigest (sha256 run.pvStream)⟩

/-- `GrpcService::estimate_cost`: `get_app`, then `estimate_cost` with the cost estimator on;
the digest is answered as `to_be_bytes_vec`. -/
def estimateCostHandler (apps : List (List Char)) (appId : List Char)
    (select : Except (List Char) Unit) (overflowChecks : Bool) (sha256 : List UInt8 → Digest)
    (emulated : Option (Except EmulationError Emulated)) :
    Except Results.Status EstimateCostResponse :=
  (Results.requireApp apps appId select).map fun _ =>
    match estimateCost sha256 overflowChecks true emulated with
    | .ok info => ⟨none, info.cost, toBeBytesVec info.pvDigest⟩
    | .error e => .ofPicoError e

/-! ## The sum of the estimates -/

/-- The `usize` sum is the plain sum modulo `2 ^ 64`, or a panic exactly when overflow checks
are on and the plain sum does not fit. -/
theorem sumUsize_eq (overflowChecks : Bool) {acc : Nat} (small : acc < 2 ^ 64) (values : List Nat) :
    sumUsize overflowChecks acc values =
      if overflowChecks ∧ 2 ^ 64 ≤ acc + total values then none
      else some ((acc + total values) % 2 ^ 64) := by
  induction values generalizing acc with
  | nil =>
    simp only [sumUsize, total, List.foldr_nil, Nat.add_zero, Nat.mod_eq_of_lt small]
    split_ifs with over
    · omega
    · rfl
  | cons value rest ih =>
    have unfolded : total (value :: rest) = value + total rest := rfl
    rw [sumUsize, unfolded, ih (Nat.mod_lt _ (by decide))]
    cases overflowChecks with
    | false =>
      simp only [Bool.false_and, Bool.false_eq_true, false_and, if_false, Option.some.injEq]
      omega
    | true =>
      simp only [Bool.true_and, decide_eq_true_eq, true_and]
      by_cases over : 2 ^ 64 ≤ acc + value
      · rw [if_pos over, if_pos (by omega)]
      · rw [if_neg over, Nat.mod_eq_of_lt (by omega : acc + value < 2 ^ 64), Nat.add_assoc]

/-! ## The digest -/

theorem pvDigestMask_eq : pvDigestMask = 2 ^ 253 - 1 := by
  rw [pvDigestMask, Nat.shiftLeft_eq, Nat.one_mul]

/-- The mask keeps the digest's value below `2 ^ 253`. -/
theorem pvDigest_eq (digest : Digest) : pvDigest digest = fromBeSlice digest.bytes % 2 ^ 253 := by
  rw [pvDigest, pvDigestMask_eq, Nat.and_pow_two_sub_one_eq_mod]

/-- The 32 bytes of the masked digest are the digest's own, with the top three bits of the
first cleared. -/
theorem toBeBytesVec_pvDigest (digest : Digest) {first : UInt8} {rest : List UInt8}
    (split : digest.bytes = first :: rest) :
    toBeBytesVec (pvDigest digest) = UInt8.ofNat (first.toNat % 32) :: rest := by
  have sized : rest.length = 31 := by
    have whole := digest.sized
    rw [split, List.length_cons] at whole
    omega
  obtain ⟨back, bound⟩ := toBeBytes_fromBeSlice rest
  rw [sized] at back bound
  have masked : pvDigest digest = 256 ^ 31 * (first.toNat % 32) + fromBeSlice rest := by
    rw [pvDigest_eq, split, fromBeSlice_cons, sized]
    omega
  have top : pvDigest digest / 256 ^ 31 % 256 = first.toNat % 32 := by omega
  rw [toBeBytesVec, toBeBytes_succ, top, ← toBeBytes_mod, masked, Nat.mul_add_mod,
    toBeBytes_mod, back]

theorem pvDigest_lt (digest : Digest) : pvDigest digest < 2 ^ 253 := by
  rw [pvDigest_eq]
  exact Nat.mod_lt _ (Nat.pos_pow_of_pos _ (by decide))

/-! ## What `estimate_cost` answers -/

/-- Every error response carries no cost and no digest, and the error's own text, under the
code of its kind. -/
theorem ofPicoError_fields (e : PicoError) :
    (EstimateCostResponse.ofPicoError e).cost = 0 ∧ (EstimateCostResponse.ofPicoError e).pvDigest = [] ∧
      ∃ code, (EstimateCostResponse.ofPicoError e).err = some ⟨code, some e.toString⟩ ∧
        (code = .inputExceeded ↔ ∃ cycles, e = .exceededCycleLimit cycles) := by
  cases e with
  | exceededCycleLimit cycles => exact ⟨rfl, rfl, _, rfl, iff_of_true rfl ⟨cycles, rfl⟩⟩
  | internalError message => exact ⟨rfl, rfl, _, rfl, ⟨nofun, fun ⟨_, same⟩ => nomatch same⟩⟩

/-- `estimate_cost` returns only for an emulation that returned, with its digest and cycle
count, and the cost its flag asks for. -/
theorem estimateCost_ok {sha256 : List UInt8 → Digest} {overflowChecks costEstimator : Bool}
    {emulated : Option (Except EmulationError Emulated)} {info : EstimatedInfo}
    (estimated : estimateCost sha256 overflowChecks costEstimator emulated = .ok info) :
    ∃ run, emulated = some (.ok run) ∧ info.pvDigest = pvDigest (sha256 run.pvStream) ∧
      info.totalCycles = run.totalCycles ∧
      (if costEstimator then
        (run.estimates.mapM id).bind fun reports => sumUsize overflowChecks 0 reports.flatten
      else some run.totalCycles) = some info.cost := by
  match emulated, estimated with
  | some (.ok run), estimated =>
    simp only [estimateCost] at estimated
    split at estimated
    · cases estimated
    · rename_i cost counted
      cases estimated
      exact ⟨run, rfl, rfl, rfl, counted⟩

/-- An answer without an error is the result of `estimate_cost`, its digest as 32 bytes. -/
theorem estimateCostHandler_clean {apps : List (List Char)} {appId : List Char}
    {select : Except (List Char) Unit} {overflowChecks : Bool} {sha256 : List UInt8 → Digest}
    {emulated : Option (Except EmulationError Emulated)} {response : EstimateCostResponse}
    (answered : estimateCostHandler apps appId select overflowChecks sha256 emulated = .ok response)
    (clean : response.err = none) :
    ∃ info, estimateCost sha256 overflowChecks true emulated = .ok info ∧
      response = ⟨none, info.cost, toBeBytesVec info.pvDigest⟩ := by
  unfold estimateCostHandler at answered
  cases found : Results.requireApp apps appId select with
  | error status =>
    rw [found] at answered
    cases answered
  | ok app =>
    rw [found] at answered
    cases estimated : estimateCost sha256 overflowChecks true emulated with
    | error e =>
      simp only [estimated, Except.map, Except.ok.injEq] at answered
      obtain ⟨-, -, code, flagged, -⟩ := ofPicoError_fields e
      rw [← answered, flagged] at clean
      cases clean
    | ok info =>
      simp only [estimated, Except.map, Except.ok.injEq] at answered
      exact ⟨info, rfl, answered.symm⟩

/-- Every answer of `estimate_cost` without an error comes from an emulation that returned,
every report of which has its estimator. The cost is the sum of their estimates modulo
`2 ^ 64`, as the `usize` sum wraps; with overflow checks on, the sum fits, since an overflow
panics and is answered as an error. The `pv_digest` is the SHA-256 digest of the public-value
stream with the top three bits of its first byte cleared, 32 bytes whose value is below
`2 ^ 253`. -/
theorem answered_pv_digest {apps : List (List Char)} {appId : List Char}
    {select : Except (List Char) Unit} {overflowChecks : Bool} {sha256 : List UInt8 → Digest}
    {emulated : Option (Except EmulationError Emulated)} {response : EstimateCostResponse}
    (answered : estimateCostHandler apps appId select overflowChecks sha256 emulated = .ok response)
    (clean : response.err = none) :
    ∃ run reports first rest, emulated = some (.ok run) ∧ run.estimates.mapM id = some reports ∧
      response.cost = total reports.flatten % 2 ^ 64 ∧
      (overflowChecks = true → total reports.flatten < 2 ^ 64) ∧
      (sha256 run.pvStream).bytes = first :: rest ∧
      response.pvDigest = UInt8.ofNat (first.toNat % 32) :: rest ∧
      fromBeSlice response.pvDigest < 2 ^ 253 := by
  obtain ⟨info, estimated, rfl⟩ := estimateCostHandler_clean answered clean
  obtain ⟨run, rfl, digest, -, counted⟩ := estimateCost_ok estimated
  rw [if_pos rfl] at counted
  obtain ⟨reports, listed, summed⟩ := Option.bind_eq_some.mp counted
  rw [sumUsize_eq overflowChecks (by decide) reports.flatten, Nat.zero_add] at summed
  split_ifs at summed with over
  have sized : 0 < (sha256 run.pvStream).bytes.length := by rw [(sha256 run.pvStream).sized]; decide
  obtain ⟨first, rest, split⟩ := List.exists_cons_of_ne_nil (List.ne_nil_of_length_pos sized)
  refine ⟨run, reports, first, rest, rfl, listed, (Option.some.inj summed).symm,
    fun checked => ?_, split, ?_, ?_⟩
  · exact Nat.lt_of_not_le fun above => over ⟨checked, above⟩
  · rw [digest, toBeBytesVec_pvDigest _ split]
  · rw [digest, fromBeSlice_toBeBytesVec ((pvDigest_lt _).trans (by decide))]
    exact pvDigest_lt _

/-- A release build, an emulation of five cycles whose one report estimates `2 ^ 63` twice, and
a digest of all ones: the cost wraps to zero, and the digest answered is `0x1f` and 31 bytes
`0xff`. -/
theorem answered_pv_digest_wrapped :
    ∃ (run : Emulated) (reports : List (List Nat)) (first : UInt8) (rest : List UInt8),
      some (Except.ok ⟨[some [2 ^ 63, 2 ^ 63]], 5, []⟩ : Except EmulationError Emulated) =
        some (.ok run) ∧ run.estimates.mapM id = some reports ∧
      0 = total reports.flatten % 2 ^ 64 ∧ (false = true → total reports.flatten < 2 ^ 64) ∧
      ((fun _ => ⟨List.replicate 32 255, rfl⟩ : List UInt8 → Digest) run.pvStream).bytes = first :: rest ∧
      UInt8.ofNat 31 :: List.replicate 31 255 = UInt8.ofNat (first.toNat % 32) :: rest ∧
      fromBeSlice (UInt8.ofNat 31 :: List.replicate 31 255) < 2 ^ 253 :=
  @answered_pv_digest ["ab".toList] "ab".toList (.ok ()) false (fun _ => ⟨List.replicate 32 255, rfl⟩)
    (some (.ok ⟨[some [2 ^ 63, 2 ^ 63]], 5, []⟩)) ⟨none, 0, UInt8.ofNat 31 :: List.replicate 31 255⟩
    rfl rfl

/-! ## The digest as the tools print it -/

/-- `format!("{:064x}", value)`: the lower-case hex digits of the value, zero-padded to 64. -/
def lowerHex64 (value : Nat) : List Char :=
  List.replicate (64 - (Nat.toDigits 16 value).length) '0' ++ Nat.toDigits 16 value

/-- `bin/gen_common_pv_digest`, and `generate_pv_digest` of `bin/gen_reth_inputs`:
`estimate_cost` with the cost estimator off, its digest printed as `0x{:064x}`. -/
def genCommonPvDigest (sha256 : List UInt8 → Digest) (overflowChecks : Bool)
    (emulated : Option (Except EmulationError Emulated)) : Except PicoError (List Char) :=
  (estimateCost sha256 overflowChecks false emulated).map fun info =>
    "0x".toList ++ lowerHex64 info.pvDigest

section Hex

theorem hexDigitValue?_digitChar {digit : Nat} (small : digit < 16) :
    hexDigitValue? (Nat.digitChar digit) = some digit := by
  have table : ∀ d : Fin 16, hexDigitValue? (Nat.digitChar d) = some d.val := by decide
  exact table ⟨digit, small⟩

theorem toDigitsCore_append {fuel n : Nat} (enough : n < fuel) (ds : List Char) :
    Nat.toDigitsCore 16 fuel n ds = Nat.toDigitsCore 16 fuel n [] ++ ds := by
  induction fuel generalizing n ds with
  | zero => omega
  | succ fuel ih =>
    simp only [Nat.toDigitsCore]
    split
    · rfl
    · rw [ih (by omega), ih (n := n / 16) (by omega) [_], List.append_assoc]
      rfl

theorem hexValue_snoc (digits : List Char) (c : Char) :
    hexValue (digits ++ [c]) = hexValue digits * 16 + (hexDigitValue? c).getD 0 := by
  simp only [hexValue, List.foldl_append, List.foldl_cons, List.foldl_nil]

theorem hexValue_zeros (k : Nat) (digits : List Char) :
    hexValue (List.replicate k '0' ++ digits) = hexValue digits := by
  have zero : (List.replicate k '0').foldl (fun value c => value * 16 + (hexDigitValue? c).getD 0) 0 = 0 := by
    induction k with
    | zero => rfl
    | succ k ih => rw [List.replicate_succ, List.foldl_cons]; exact ih
  simp only [hexValue, List.foldl_append, zero]

/-- `to_digits` in base 16 writes hex digits that read back as the value. -/
theorem toDigitsCore_hex {fuel n : Nat} (enough : n < fuel) :
    hexValue (Nat.toDigitsCore 16 fuel n []) = n ∧
      ∀ c ∈ Nat.toDigitsCore 16 fuel n [], (hexDigitValue? c).isSome := by
  induction fuel generalizing n with
  | zero => omega
  | succ fuel ih =>
    have digit := hexDigitValue?_digitChar (Nat.mod_lt n (by decide : 16 > 0))
    simp only [Nat.toDigitsCore]
    split
    · refine ⟨?_, by simp [digit]⟩
      simp only [hexValue, List.foldl_cons, List.foldl_nil, digit, Option.getD_some]
      omega
    · obtain ⟨value, hex⟩ := ih (n := n / 16) (by omega)
      rw [toDigitsCore_append (by omega)]
      refine ⟨?_, fun c member => ?_⟩
      · rw [hexValue_snoc, value, digit, Option.getD_some]
        omega
      · rcases List.mem_append.mp member with old | new
        · exact hex c old
        · rw [List.mem_singleton.mp new, digit]
          rfl

/-- The 64 digits `{:064x}` writes for a `U256` read back as its value. -/
theorem lowerHex64_reads_back {value : Nat} (small : value < 2 ^ 256) :
    (lowerHex64 value).length = 64 ∧ (∀ c ∈ lowerHex64 value, c ≠ 'x') ∧
      fromStrRadix (lowerHex64 value) 16 = .ok value := by
  obtain ⟨read, hex⟩ := toDigitsCore_hex (Nat.lt_succ_self value)
  have fits : (Nat.toDigits 16 value).length ≤ 64 :=
    Nat.toDigitsCore_length 16 (by decide) _ _ 64 (small.trans_eq (by decide)) (by decide)
  have padded : ∀ c ∈ lowerHex64 value, (hexDigitValue? c).isSome := by
    intro c member
    rcases List.mem_append.mp member with zero | digit
    · rw [List.eq_of_mem_replicate zero]
      rfl
    · exact hex c digit
  refine ⟨?_, fun c member => (hexDigitValue?_spec (Option.get_mem (padded c member))).2.2.2.2.2, ?_⟩
  · rw [lowerHex64, List.length_append, List.length_replicate]
    omega
  · rw [fromStrRadix_hex padded (by rw [lowerHex64, List.length_append, List.length_replicate]; omega),
      lowerHex64, hexValue_zeros]
    exact congrArg Except.ok read

end Hex

/-- What `gen_common_pv_digest` prints for an emulation reads back, with the decoder's own
`U256::from_str_radix`, as the value of the `pv_digest` bytes `estimate_cost` answers for an
emulation with the same public values: the tool and the service agree on the digest. The text
is `0x` and 64 digits. -/
theorem printed_pv_digest_reads_back {apps : List (List Char)} {appId : List Char}
    {select : Except (List Char) Unit} {overflowChecks overflowChecks' : Bool}
    {sha256 : List UInt8 → Digest} {run run' : Emulated} {response : EstimateCostResponse}
    (sameValues : run.pvStream = run'.pvStream)
    (answered : estimateCostHandler apps appId select overflowChecks sha256 (some (.ok run')) =
      .ok response)
    (clean : response.err = none) :
    ∃ text, genCommonPvDigest sha256 overflowChecks' (some (.ok run)) = .ok text ∧ text.length = 66 ∧
      fromStrRadix (trimStartMatches0x text) 16 = .ok (fromBeSlice response.pvDigest) := by
  obtain ⟨info, estimated, rfl⟩ := estimateCostHandler_clean answered clean
  obtain ⟨_, same, digest, -, -⟩ := estimateCost_ok estimated
  cases same
  have small := (pvDigest_lt (sha256 run.pvStream)).trans (by decide : 2 ^ 253 < 2 ^ 256)
  obtain ⟨length, noX, read⟩ := lowerHex64_reads_back small
  refine ⟨_, rfl, by rw [List.length_append, length]; rfl, ?_⟩
  rw [show trimStartMatches0x ("0x".toList ++ lowerHex64 (pvDigest (sha256 run.pvStream))) =
      trimStartMatches0x (lowerHex64 (pvDigest (sha256 run.pvStream))) from rfl,
    trimStartMatches0x_of_not_x noX, read, digest, fromBeSlice_toBeBytesVec
      ((pvDigest_lt _).trans (by decide)), sameValues]

/-- The all-ones digest: the tool prints `0x1fff…ff`, and the service answers its bytes. -/
theorem printed_pv_digest_reads_back_all_ones :
    ∃ text, genCommonPvDigest (fun _ => ⟨List.replicate 32 255, rfl⟩) true (some (.ok ⟨[], 5, []⟩)) =
        .ok text ∧ text.length = 66 ∧
      fromStrRadix (trimStartMatches0x text) 16 =
        .ok (fromBeSlice (UInt8.ofNat 31 :: List.replicate 31 255)) :=
  @printed_pv_digest_reads_back ["ab".toList] "ab".toList (.ok ()) true true
    (fun _ => ⟨List.replicate 32 255, rfl⟩) ⟨[], 5, []⟩ ⟨[], 5, []⟩
    ⟨none, 0, UInt8.ofNat 31 :: List.replicate 31 255⟩ rfl rfl rfl

end ProvingService.Cost
