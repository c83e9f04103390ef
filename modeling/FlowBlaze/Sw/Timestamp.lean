import FlowBlaze.Sw.FieldBytes
import FlowBlaze.Sw.Worker
import Mathlib.Tactic.IntervalCases
/-!
# Timestamps — `flowblaze.c`

Each time a stage takes a packet, the worker writes the time into its
buffer, in microseconds from a reading of the TSC, and conditions and
updates read it back through a header field. The product of a reading
and a million is a 64-bit word, so the time is right up to the reading
at which that product is past the word.
-/

namespace FlowBlaze

namespace Sw

/-! ## Writing and reading the time -/

/-- `US_PER_S`. -/
def usPerS : Word64 := 1000000

/-- `(cur_tsc * US_PER_S) / rte_get_tsc_hz()`. -/
def timestampAt (hz curTsc : Word64) : Word64 := curTsc * usPerS / hz

/-- A packet that a stage takes at this reading. -/
def Mem.stamp (M : Mem) (hz curTsc : Word64) : Mem :=
  { M with packet := { M.packet with mbuf.timestamp := timestampAt hz curTsc } }

/-- The operand for the timestamp, in a condition or an update. -/
def timestampOperand (E : Env) (regs : Registers) : Option Word64 :=
  E.operand regs .xfsmHdrField (BitVec.ofNat 64 HdrField.xfsmTimestamp.number) 0

/-- What is read of the time in a run of a table: each packet is stamped
with its reading and parsed, and then an operand is read. -/
def timesRead (hz : Word64) (globals regs : Registers) : PktFields → List (Word64 × Mem) →
    Option (List Word64)
  | _, [] => some []
  | fields, (curTsc, M) :: run => do
    let M := M.stamp hz curTsc
    let fields ← parsePktHeader M fields
    let value ← timestampOperand ⟨globals, fields, M⟩ regs
    let values ← timesRead hz globals regs fields run
    return value :: values

/-- The time of a reading, in microseconds. -/
def microseconds (hz curTsc : Word64) : ℕ := curTsc.toNat * 1000000 / hz.toNat

/-- **The times read are those of the readings**, and never go backwards,
as words and as signed numbers. -/
structure TimesFaithful (hz : Word64) (readings values : List Word64) : Prop where
  floor : values.map BitVec.toNat = readings.map (microseconds hz)
  signedFloor : values.map BitVec.toInt = readings.map fun curTsc => (microseconds hz curTsc : ℤ)
  rising : values.Pairwise fun v w => v.toNat ≤ w.toNat
  signedRising : values.Pairwise fun v w => v.toInt ≤ w.toInt

/-! ## What is read -/

/-- **The timestamp is read as it was written.** -/
theorem timestampOperand_eq {M : Mem} {fields fields' : PktFields} (globals regs : Registers)
    (h : parsePktHeader M fields = some fields') :
    timestampOperand ⟨globals, fields', M⟩ regs = some M.packet.mbuf.timestamp := by
  rw [parsePktHeader_eq] at h
  obtain ⟨b, -, rfl⟩ := Option.map_eq_some_iff.mp h
  have hread : getHdrValue M (M.packet.overlay fields b) .xfsmTimestamp =
      some (some M.packet.mbuf.timestamp) := congrArg (Option.map some) (readField_timestamp M)
  have hnumber : HdrField.ofNumber
      (BitVec.ofNat 64 HdrField.xfsmTimestamp.number).toNat = some .xfsmTimestamp := rfl
  unfold timestampOperand Env.operand
  simp only [hnumber, hread, Option.bind_eq_bind, Option.bind_some, Option.getD_some,
    Option.pure_def]

/-- **The values of a run** are the times written. -/
theorem timesRead_eq {hz : Word64} {globals regs : Registers} {fields : PktFields}
    {run : List (Word64 × Mem)} {values : List Word64}
    (h : timesRead hz globals regs fields run = some values) :
    values = (run.map Prod.fst).map (timestampAt hz) := by
  induction run generalizing fields values with
  | nil =>
    cases h
    rfl
  | cons r run ih =>
    obtain ⟨curTsc, M⟩ := r
    obtain ⟨fields', hparse, h⟩ := Option.bind_eq_some_iff.mp h
    obtain ⟨value, hvalue, h⟩ := Option.bind_eq_some_iff.mp h
    obtain ⟨values', hvalues, h⟩ := Option.bind_eq_some_iff.mp h
    cases h
    rw [timestampOperand_eq globals regs hparse] at hvalue
    cases hvalue
    rw [List.map_cons, List.map_cons, ih hvalues]
    rfl

/-! ## Overflow -/

/-- Past the word the quotient is too small. -/
theorem div_mod_lt {x n d : ℕ} (hd : 0 < d) (hdn : d ≤ n) (hx : n ≤ x) : x % n / d < x / d := by
  have hsplit : x % n + d ≤ x := by
    have hdiv : 1 ≤ x / n := (Nat.one_le_div_iff (by omega)).mpr hx
    have hmul : n * 1 ≤ n * (x / n) := Nat.mul_le_mul_left n hdiv
    have hmod := Nat.mod_add_div x n
    omega
  calc x % n / d < x % n / d + 1 := Nat.lt_succ_self _
    _ = (x % n + d) / d := (Nat.add_div_right _ hd).symm
    _ ≤ x / d := Nat.div_le_div_right hsplit

theorem toNat_timestampAt (hz curTsc : Word64) :
    (timestampAt hz curTsc).toNat = curTsc.toNat * 1000000 % 2 ^ 64 / hz.toNat := by
  unfold timestampAt usPerS
  rw [BitVec.toNat_udiv, BitVec.toNat_mul]
  rfl

/-- **A timestamp is right** exactly as long as the product fits the word. -/
theorem toNat_timestampAt_iff {hz curTsc : Word64} (hhz : 0 < hz.toNat) :
    (timestampAt hz curTsc).toNat = microseconds hz curTsc ↔ curTsc.toNat * 1000000 < 2 ^ 64 := by
  rw [toNat_timestampAt]
  unfold microseconds
  constructor
  · intro h
    by_contra hlarge
    have hlt := div_mod_lt hhz hz.isLt.le (Nat.not_lt.mp hlarge)
    omega
  · intro h
    rw [Nat.mod_eq_of_lt h]

/-- The reading is small enough for the time to fit a signed word. -/
def ReadingFits (hz curTsc : Word64) : Prop :=
  curTsc.toNat * 1000000 < 2 ^ 64 ∧ microseconds hz curTsc < 2 ^ 63

/-- The same as a signed number. -/
theorem toInt_timestampAt {hz curTsc : Word64} (h : ReadingFits hz curTsc) :
    (timestampAt hz curTsc).toInt = (microseconds hz curTsc : ℤ) := by
  have hnat : (timestampAt hz curTsc).toNat = microseconds hz curTsc := by
    rw [toNat_timestampAt, Nat.mod_eq_of_lt h.1]
    rfl
  rw [BitVec.toInt_eq_toNat_of_lt (by have := h.2; omega), hnat]

/-- A word that is a natural number as a signed one is small. -/
theorem lt_of_toInt_eq {x : Word64} {n : ℕ} (h : x.toInt = (n : ℤ)) : n < 2 ^ 63 := by
  rw [BitVec.toInt_eq_toNat_cond] at h
  have hlt := x.isLt
  split at h <;> omega

/-- A later reading is not earlier in microseconds. -/
theorem microseconds_mono {hz c d : Word64} (h : c.toNat ≤ d.toNat) :
    microseconds hz c ≤ microseconds hz d :=
  Nat.div_le_div_right (Nat.mul_le_mul_right _ h)

/-- **Timestamps are faithful exactly while the readings are small enough**:
the product with a million fits 64 bits, and the time 63. -/
theorem timesFaithful_iff {hz : Word64} {globals regs : Registers} {fields : PktFields}
    {run : List (Word64 × Mem)} {values : List Word64} (hhz : 0 < hz.toNat)
    (hreadings : (run.map Prod.fst).Pairwise fun c d => c.toNat ≤ d.toNat)
    (h : timesRead hz globals regs fields run = some values) :
    TimesFaithful hz (run.map Prod.fst) values ↔
      ∀ curTsc ∈ run.map Prod.fst, ReadingFits hz curTsc := by
  obtain rfl := timesRead_eq h
  generalize run.map Prod.fst = readings at hreadings
  constructor
  · intro hfaithful c hc
    have hfloor := hfaithful.floor
    have hsigned := hfaithful.signedFloor
    rw [List.map_map, List.map_inj_left] at hfloor hsigned
    have hnat := hfloor c hc
    have hint := hsigned c hc
    rw [Function.comp_apply] at hnat hint
    exact ⟨(toNat_timestampAt_iff hhz).mp hnat, lt_of_toInt_eq hint⟩
  · intro hfits
    have hnat : ∀ c ∈ readings, (timestampAt hz c).toNat = microseconds hz c := fun c hc =>
      (toNat_timestampAt_iff hhz).mpr (hfits c hc).1
    have hint : ∀ c ∈ readings, (timestampAt hz c).toInt = (microseconds hz c : ℤ) := fun c hc =>
      toInt_timestampAt (hfits c hc)
    refine ⟨?_, ?_, ?_, ?_⟩
    · rw [List.map_map]
      refine List.map_congr_left fun c hc => ?_
      rw [Function.comp_apply, hnat c hc]
    · rw [List.map_map]
      refine List.map_congr_left fun c hc => ?_
      rw [Function.comp_apply, hint c hc]
    · rw [List.pairwise_map]
      refine hreadings.imp_of_mem fun hc hd hcd => ?_
      rw [hnat _ hc, hnat _ hd]
      exact microseconds_mono hcd
    · rw [List.pairwise_map]
      refine hreadings.imp_of_mem fun hc hd hcd => ?_
      rw [hint _ hc, hint _ hd]
      exact_mod_cast microseconds_mono hcd

/-! ## Two readings -/

/-- A packet of the shortest kind that is parsed. -/
def shortFrame : Mem := ⟨1, ⟨0, ⟨List.replicate 24 0, 0, 0⟩⟩⟩

/-- Two readings of a 2 GHz counter after about two hours, a second apart. -/
def twoHours : List (Word64 × Mem) :=
  [(14400000000000, shortFrame), (14402000000000, shortFrame)]

/-- Their times are right. -/
theorem timesFaithful_twoHours :
    ∃ values, timesRead 2000000000 (fun _ => 0) (fun _ => 0) .null twoHours = some values ∧
      TimesFaithful 2000000000 (twoHours.map Prod.fst) values := by
  have hread : timesRead 2000000000 (fun _ => 0) (fun _ => 0) .null twoHours =
      some [7200000000, 7201000000] := by decide +kernel
  have hrising : (twoHours.map Prod.fst).Pairwise fun c d => c.toNat ≤ d.toNat := by
    decide +kernel
  have hfits : ∀ curTsc ∈ twoHours.map Prod.fst, curTsc.toNat * 1000000 < 2 ^ 64 ∧
      microseconds 2000000000 curTsc < 2 ^ 63 := by simp [twoHours, microseconds]
  have hhz : 0 < (2000000000 : Word64).toNat := by decide
  exact ⟨_, hread, (timesFaithful_iff hhz hrising hread).mpr hfits⟩

/-- Two readings on the two sides of the overflow. -/
def threeHours : List (Word64 × Mem) :=
  [(18446744073709, shortFrame), (18446744073710, shortFrame)]

/-- **The second time is zero** although the counter went on. -/
theorem not_timesFaithful :
    ∃ values, timesRead 2000000000 (fun _ => 0) (fun _ => 0) .null threeHours = some values ∧
      ¬ TimesFaithful 2000000000 (threeHours.map Prod.fst) values := by
  refine ⟨[9223372036, 0], by decide +kernel, fun h => ?_⟩
  have hrising := h.rising
  revert hrising
  decide

end Sw

end FlowBlaze
