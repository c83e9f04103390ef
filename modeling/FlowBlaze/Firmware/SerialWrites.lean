import FlowBlaze.Firmware.Rsscanf
import Mathlib.Data.Nat.Digits.Defs
/-!
# Write commands over the serial port

In its USB mode the loader writes a register by a line of text, opcode 97
with an address and a value in hexadecimal, each padded to eight digits.
The firmware reads the line into a buffer that it does not clear. The
scan of the last number then goes on behind the line: it always reads one
byte more, and where the buffer happens to hold hexadecimal digits there,
they become digits of the value.
-/

namespace FlowBlaze

namespace Firmware

/-- `STR_FORMAT_32.format(n, 8)`. -/
def strFormat32 (n : ℕ) : List Char := (Nat.toDigits 16 n).leftpad 8 '0'

/-- The line of a write command. -/
def commandLine (call : ℕ × ℕ) : List Byte :=
  bytes "97 0x".toList ++ bytes (strFormat32 call.1) ++
    (bytes " 0x".toList ++ bytes (strFormat32 call.2))

/-- What `write_register` sends in USB mode for an address and a value. -/
def writeRegister (call : ℕ × ℕ) : List Byte := commandLine call ++ [0x0D]

/-- **Iterations of the command loop**, one for each call: each finds a
buffer with some content, and receives one line. -/
def Each (P : ℕ × ℕ → List Byte → ℕ → Prop) :
    List (ℕ × ℕ) → List (List Byte) → List Byte → Prop
  | [], _, _ => True
  | _ :: _, [], _ => False
  | call :: calls, msg :: msgs, input =>
    ∃ msg' rest, getline msg input = some (msg', rest) ∧
      P call msg' (input.length - rest.length - 1) ∧ Each P calls msgs rest

/-- The command of the call is understood. -/
def Understood (call : ℕ × ℕ) (msg : List Byte) (_received : ℕ) : Prop :=
  readCommand msg = some ⟨97, BitVec.ofNat 32 call.1, BitVec.ofNat 32 call.2⟩

/-- **The command arrives intact**: it is understood, and nothing behind
the bytes received is read. -/
def Intact (call : ℕ × ℕ) (msg : List Byte) (received : ℕ) : Prop :=
  Understood call msg received ∧ (rsscanf (msg.take received) commandFormat).isSome = true

/-- **What the buffer may hold behind the line** without changing the
value: hexadecimal digits that leave it as it is, a byte that is none,
any byte, and somewhere behind it one that is no space. -/
def Harmless (value : BitVec 32) (stale : List Byte) : Prop :=
  ∃ digits c rest, stale = digits ++ c :: rest ∧ Digits hexDigit digits ∧ hexDigit c = none ∧
    digitsValue hexDigit 16 value digits = value ∧ ∃ c ∈ rest, c ≠ 0x20

/-! ## The digits -/

section Digits

variable {n : ℕ}

theorem bytes_append (s t : List Char) : bytes (s ++ t) = bytes s ++ bytes t := List.map_append

theorem digitsValue_append (digit : Byte → Option (BitVec 32)) (base value : BitVec 32)
    (s t : List Byte) :
    digitsValue digit base value (s ++ t) =
      digitsValue digit base (digitsValue digit base value s) t := List.foldl_append

/-- A digit is read as its value. -/
theorem hexDigit_digitChar {d : ℕ} (hd : d < 16) :
    hexDigit (BitVec.ofNat 8 d.digitChar.toNat) = some (BitVec.ofNat 32 d) := by
  have hall : ∀ d : Fin 16,
      hexDigit (BitVec.ofNat 8 (d : ℕ).digitChar.toNat) = some (BitVec.ofNat 32 d) := by
    decide
  exact hall ⟨d, hd⟩

/-- Digits are no terminators. -/
theorem ne_zero_of_hexDigit {c : Byte} (hc : (hexDigit c).isSome = true) :
    c ≠ 0 ∧ c ≠ 0x0D ∧ c ≠ 0xFF := by
  refine ⟨?_, ?_, ?_⟩ <;> rintro rfl <;> cases hc

/-- **A number in hexadecimal** is read as what it is. -/
theorem digitsValue_toDigits (n : ℕ) :
    Digits hexDigit (bytes (Nat.toDigits 16 n)) ∧
      digitsValue hexDigit 16 0 (bytes (Nat.toDigits 16 n)) = BitVec.ofNat 32 n := by
  induction n using Nat.base_induction 16 (by decide) with
  | single m hm =>
    have hval := hexDigit_digitChar hm
    rw [Nat.toDigits_of_lt_base hm]
    refine ⟨List.forall_mem_singleton.mpr ?_, ?_⟩
    · have hsome : (hexDigit (BitVec.ofNat 8 m.digitChar.toNat)).isSome = true := by rw [hval]; rfl
      exact ⟨(ne_zero_of_hexDigit hsome).1, hsome⟩
    · show 0#32 * 16 + (hexDigit (BitVec.ofNat 8 m.digitChar.toNat)).getD 0 = _
      rw [hval, BitVec.zero_mul, BitVec.zero_add]
      rfl
  | digit m k hk hm ih =>
    have hval := hexDigit_digitChar hk
    rw [← Nat.toDigits_append_toDigits (by decide) hm hk, Nat.toDigits_of_lt_base hk, bytes_append]
    refine ⟨List.forall_mem_append.mpr ⟨ih.1, List.forall_mem_singleton.mpr ?_⟩, ?_⟩
    · have hsome : (hexDigit (BitVec.ofNat 8 k.digitChar.toNat)).isSome = true := by rw [hval]; rfl
      exact ⟨(ne_zero_of_hexDigit hsome).1, hsome⟩
    · rw [digitsValue_append, ih.2]
      show BitVec.ofNat 32 m * 16 + (hexDigit (BitVec.ofNat 8 k.digitChar.toNat)).getD 0 = _
      rw [hval, Nat.mul_comm, BitVec.ofNat_add, BitVec.ofNat_mul]
      rfl

/-- So it is behind zeros. -/
theorem digitsValue_zeros (k : ℕ) :
    digitsValue hexDigit 16 0 (bytes (List.replicate k '0')) = 0 := by
  induction k with
  | zero => rfl
  | succ k ih => exact ih

/-- **A padded number**: digits, with the value of the number. -/
theorem digits_strFormat32 (n : ℕ) : Digits hexDigit (bytes (strFormat32 n)) ∧
    digitsValue hexDigit 16 0 (bytes (strFormat32 n)) = BitVec.ofNat 32 n := by
  obtain ⟨hdigits, hval⟩ := digitsValue_toDigits n
  unfold strFormat32 List.leftpad
  rw [bytes_append]
  refine ⟨List.forall_mem_append.mpr ⟨fun c hc => ?_, hdigits⟩, ?_⟩
  · obtain ⟨z, hz, rfl⟩ := List.mem_map.mp hc
    rw [List.eq_of_mem_replicate hz]
    decide
  · rw [digitsValue_append, digitsValue_zeros, hval]

theorem strFormat32_ne_nil (n : ℕ) : bytes (strFormat32 n) ≠ [] := by
  unfold strFormat32 List.leftpad
  rw [bytes_append]
  refine List.append_ne_nil_of_right_ne_nil _ fun h => ?_
  exact Nat.toDigits_ne_nil (List.map_eq_nil_iff.mp h)

/-- Below 2³² it has eight digits. -/
theorem length_strFormat32 (h : n < 2 ^ 32) : (bytes (strFormat32 n)).length = 8 := by
  have hlen : (Nat.toDigits 16 n).length ≤ 8 :=
    (Nat.length_toDigits_le_iff (by decide) (by decide)).mpr h
  unfold bytes strFormat32
  rw [List.length_map, List.length_leftpad]
  omega

end Digits

/-! ## The line -/

section Line

variable {call : ℕ × ℕ} {stale : List Byte}

theorem length_commandLine (h : call.1 < 2 ^ 32 ∧ call.2 < 2 ^ 32) :
    (commandLine call).length = 24 := by
  unfold commandLine
  rw [List.length_append, List.length_append, List.length_append, length_strFormat32 h.1,
    length_strFormat32 h.2]
  rfl

/-- The line has no end of line in it. -/
theorem commandLine_ne (call : ℕ × ℕ) : ∀ c ∈ commandLine call, c ≠ 0x0D ∧ c ≠ 0xFF := by
  have hdigits : ∀ n, ∀ c ∈ bytes (strFormat32 n), c ≠ 0x0D ∧ c ≠ 0xFF := fun n c hc =>
    (ne_zero_of_hexDigit ((digits_strFormat32 n).1 c hc).2).2
  refine List.forall_mem_append.mpr ⟨List.forall_mem_append.mpr ⟨?_, hdigits _⟩,
    List.forall_mem_append.mpr ⟨?_, hdigits _⟩⟩
  · decide
  · decide

/-- The end of the format: the spaces behind the last number are skipped. -/
theorem scan_newline (t : List Byte) :
    loopTest [0x0A] t (scan [0x0A] t) = (skipSpaces t).map fun _ => [] := by
  cases t with
  | nil => rfl
  | cons c t =>
    unfold loopTest
    dsimp only
    split
    · rename_i hc
      subst hc
      rfl
    · rw [scan.eq_2, if_neg (by decide)]
      cases hskip : skipSpaces (c :: t) with
      | none => rfl
      | some left =>
        cases left with
        | nil => exact absurd rfl (skipSpaces_append hskip []).1
        | cons d left =>
          dsimp only
          split
          · rfl
          · rw [if_neg (by decide)]
            split <;> rfl

/-- **What the scan makes of a line**, and of the bytes behind it. -/
theorem rsscanf_commandLine (call : ℕ × ℕ) (stale : List Byte) :
    rsscanf (commandLine call ++ stale) commandFormat =
      (number hexDigit 16 (BitVec.ofNat 32 call.2) (bytes (strFormat32 call.2)).length stale).bind
        fun r => (skipSpaces r.2.2.tail).map fun _ =>
          [.int 97, .int (BitVec.ofNat 32 call.1), .int r.1] := by
  have hline : commandLine call ++ stale =
      0x39 :: 0x37 :: 0x20 :: 0x30 :: 0x78 :: (bytes (strFormat32 call.1) ++
        0x20 :: 0x30 :: 0x78 :: (bytes (strFormat32 call.2) ++ stale)) := by
    unfold commandLine
    rw [List.append_assoc, List.append_assoc, List.append_assoc]
    rfl
  have hformat : commandFormat =
      [0x25, 0x64, 0x20, 0x30, 0x78, 0x25, 0x78, 0x20, 0x30, 0x78, 0x25, 0x78, 0x0A] := rfl
  obtain ⟨haddr, haddrval⟩ := digits_strFormat32 call.1
  obtain ⟨hvalue, hvalueval⟩ := digits_strFormat32 call.2
  have hfirst : ∀ (n : ℕ) (f : Byte) (format t : List Byte) (body : Option (List Stored)),
      loopTest (f :: format) (bytes (strFormat32 n) ++ t) body = body := by
    intro n f format t body
    obtain ⟨c, digits, hc⟩ := List.exists_cons_of_ne_nil (strFormat32_ne_nil n)
    have hzero : c ≠ 0 := ((digits_strFormat32 n).1 c (by rw [hc]; exact List.mem_cons_self)).1
    rw [hc, List.cons_append, loopTest_cons hzero]
  rw [hline, hformat]
  unfold rsscanf
  -- the opcode, and the space behind it
  have hopcode : ∀ t, convert 0x64 (0x39 :: 0x37 :: 0x20 :: t) =
      some (some (.int 97, 0x20 :: t)) := fun _ => rfl
  rw [loopTest_cons (by decide), scan_convert (by decide) (by decide) (hopcode _),
    List.tail_cons, loopTest_cons (by decide), scan_space]
  -- the address
  rw [scan_literal (by decide) (by decide) (by decide), loopTest_cons (by decide),
    scan_literal (by decide) (by decide) (by decide), hfirst,
    scan_hex haddr (strFormat32_ne_nil _), number_end rfl, Option.bind_some, List.tail_cons,
    loopTest_cons (by decide), scan_space]
  -- the value
  rw [scan_literal (by decide) (by decide) (by decide), loopTest_cons (by decide),
    scan_literal (by decide) (by decide) (by decide), hfirst,
    scan_hex hvalue (strFormat32_ne_nil _), haddrval, hvalueval]
  cases number hexDigit 16 (BitVec.ofNat 32 call.2) (bytes (strFormat32 call.2)).length stale with
  | none => rfl
  | some r =>
    rw [Option.bind_some, Option.bind_some, scan_newline]
    cases skipSpaces r.2.2.tail <;> rfl

/-- **The scan reads behind the line.** -/
theorem rsscanf_commandLine_alone (call : ℕ × ℕ) :
    rsscanf (commandLine call) commandFormat = none := by
  have h := rsscanf_commandLine call []
  rw [List.append_nil] at h
  rw [h]
  rfl

/-- **When the command is understood.** -/
theorem understood_iff {received : ℕ} :
    Understood call (commandLine call ++ stale) received ↔
      Harmless (BitVec.ofNat 32 call.2) stale := by
  unfold Understood readCommand
  rw [rsscanf_commandLine]
  constructor
  · intro h
    obtain ⟨stored, hstored, hcommand⟩ := Option.map_eq_some_iff.mp h
    obtain ⟨r, hr, hskip⟩ := Option.bind_eq_some_iff.mp hstored
    obtain ⟨left, hleft, rfl⟩ := Option.map_eq_some_iff.mp hskip
    obtain ⟨digits, c, rest, rfl, hdigits, hc, rfl⟩ := (number_eq_some rfl).mp hr
    refine ⟨digits, c, rest, rfl, hdigits, hc, ?_, ?_⟩
    · exact congrArg Command.value hcommand
    · exact skipSpaces_isSome.mp (by rw [List.tail_cons] at hleft; rw [hleft]; rfl)
  · rintro ⟨digits, c, rest, rfl, hdigits, hc, hval, hbehind⟩
    obtain ⟨left, hleft⟩ := Option.isSome_iff_exists.mp (skipSpaces_isSome.mpr hbehind)
    rw [number_digits hdigits, number_end hc, Option.bind_some, List.tail_cons, hleft, hval]
    rfl

end Line

/-! ## Sequences of calls -/

section Calls

variable {P : ℕ × ℕ → List Byte → ℕ → Prop} {calls : List (ℕ × ℕ)} {msgs : List (List Byte)}

/-- **In each iteration the buffer holds the line of its call**, and behind
it what it held before. -/
theorem each_writeRegister (hcalls : ∀ call ∈ calls, call.1 < 2 ^ 32 ∧ call.2 < 2 ^ 32)
    (hmsgs : ∀ msg ∈ msgs, msg.length = 256) (hlen : msgs.length = calls.length) :
    Each P calls msgs (calls.flatMap writeRegister) ↔
      ∀ x ∈ calls.zip msgs, P x.1 (commandLine x.1 ++ x.2.drop 24) 24 := by
  induction calls generalizing msgs with
  | nil => exact iff_of_true trivial (by rintro x hx; cases hx)
  | cons call calls ih =>
    obtain ⟨hcall, hcalls⟩ := List.forall_mem_cons.mp hcalls
    cases msgs with
    | nil => cases hlen
    | cons msg msgs =>
      obtain ⟨hmsg, hmsgs⟩ := List.forall_mem_cons.mp hmsgs
      have hline := length_commandLine hcall
      have hinput : (call :: calls).flatMap writeRegister =
          commandLine call ++ 0x0D :: calls.flatMap writeRegister := by
        rw [List.flatMap_cons, writeRegister, List.append_assoc]
        rfl
      -- the line is shorter than the buffer, so what is behind it stays
      have hget : getline msg (commandLine call ++ 0x0D :: calls.flatMap writeRegister) = some
          (commandLine call ++ msg.drop (commandLine call).length, calls.flatMap writeRegister) :=
        getline_line (commandLine_ne call) (by rw [hline, hmsg]; decide)
      rw [hline] at hget
      have hreceived : ((call :: calls).flatMap writeRegister).length -
          (calls.flatMap writeRegister).length - 1 = 24 := by
        rw [hinput, List.length_append, List.length_cons, hline]
        omega
      rw [List.zip_cons_cons, List.forall_mem_cons,
        ← ih hcalls hmsgs (Nat.succ_injective hlen)]
      constructor
      · rintro ⟨msg', rest, hget', hP, hrest⟩
        rw [hinput, hget] at hget'
        cases hget'
        rw [hreceived] at hP
        exact ⟨hP, hrest⟩
      · rintro ⟨hP, hrest⟩
        refine ⟨_, _, by rw [hinput]; exact hget, ?_, hrest⟩
        rw [hreceived]
        exact hP

/-- **Write commands never arrive intact**: every one makes the scan read
behind its line. They are all understood exactly when the bytes there are
harmless. -/
theorem serial_writes_iff (hcalls : ∀ call ∈ calls, call.1 < 2 ^ 32 ∧ call.2 < 2 ^ 32)
    (hmsgs : ∀ msg ∈ msgs, msg.length = 256) (hlen : msgs.length = calls.length) :
    (Each Intact calls msgs (calls.flatMap writeRegister) ↔ calls = []) ∧
      (Each Understood calls msgs (calls.flatMap writeRegister) ↔
        ∀ x ∈ calls.zip msgs, Harmless (BitVec.ofNat 32 x.1.2) (x.2.drop 24)) := by
  rw [each_writeRegister hcalls hmsgs hlen, each_writeRegister hcalls hmsgs hlen]
  constructor
  · constructor
    · intro hall
      cases calls with
      | nil => rfl
      | cons call calls =>
        cases msgs with
        | nil => cases hlen
        | cons msg msgs =>
          have hread := (hall (call, msg) List.mem_cons_self).2
          rw [← length_commandLine (hcalls call List.mem_cons_self), List.take_left,
            rsscanf_commandLine_alone] at hread
          cases hread
    · rintro rfl x hx
      cases hx
  · exact forall₂_congr fun x _ => understood_iff

/-- A buffer that holds a digit behind the line, and zeros. -/
def staleDigit : List Byte := List.replicate 25 0x30 ++ List.replicate 231 0

/-- The value 5 arrives as 80. -/
theorem not_serial_writes :
    ¬ ∀ calls msgs, (∀ call ∈ calls, call.1 < 2 ^ 32 ∧ call.2 < 2 ^ 32) →
      (∀ msg ∈ msgs, msg.length = 256) → msgs.length = calls.length →
      Each Intact calls msgs (calls.flatMap writeRegister) := by
  intro hall
  have hlen : ∀ msg ∈ [staleDigit], msg.length = 256 := by
    refine List.forall_mem_singleton.mpr ?_
    rw [staleDigit, List.length_append, List.length_replicate, List.length_replicate]
  have hone := hall [(0x80000008, 5)] [staleDigit] (by decide) hlen rfl
  rw [each_writeRegister (by decide) hlen rfl] at hone
  have hread : readCommand (commandLine (0x80000008, 5) ++ staleDigit.drop 24) =
      some ⟨97, 0x80000008, 80⟩ := by
    decide +kernel
  have hwant := (hone _ List.mem_cons_self).1
  unfold Understood at hwant
  rw [hread] at hwant
  exact absurd hwant (by decide)

/-- Two calls. -/
def twoWrites : List (ℕ × ℕ) := [(0x80000008, 5), (0x8000000C, 0xFFFFFFFF)]

/-- Where the buffer was clear **both commands are understood**, and they do
not arrive intact. -/
theorem serial_writes_iff_clear :
    ¬Each Intact twoWrites (List.replicate 2 (List.replicate 256 0))
        (twoWrites.flatMap writeRegister) ∧
      Each Understood twoWrites (List.replicate 2 (List.replicate 256 0))
        (twoWrites.flatMap writeRegister) := by
  have hmsgs : ∀ msg ∈ List.replicate 2 (List.replicate 256 (0 : Byte)), msg.length = 256 :=
    fun msg hmsg => by
      rw [List.eq_of_mem_replicate hmsg]
      exact List.length_replicate
  have hclear : ∀ value, Harmless value ((List.replicate 256 0).drop 24) := by
    intro value
    refine ⟨[], 0, List.replicate 231 0, by rw [List.drop_replicate]; rfl, ?_, rfl, rfl, 0, ?_⟩
    · exact fun c hc => by cases hc
    · exact ⟨List.mem_replicate.mpr ⟨by decide, rfl⟩, by decide⟩
  have hcalls : ∀ call ∈ twoWrites, call.1 < 2 ^ 32 ∧ call.2 < 2 ^ 32 := by decide
  obtain ⟨hintact, hunderstood⟩ := serial_writes_iff hcalls hmsgs rfl
  refine ⟨fun h => List.cons_ne_nil _ _ (hintact.mp h), hunderstood.mpr fun x hx => ?_⟩
  rw [List.eq_of_mem_replicate (List.of_mem_zip hx).2]
  exact hclear _

end Calls

end Firmware

end FlowBlaze
