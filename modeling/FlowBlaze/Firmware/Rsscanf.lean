import Mathlib.Data.List.Basic
/-!
# Reading commands — `main.c` of the firmware

The firmware reads a line from the serial port into a buffer on the stack
and scans it with a `scanf` of its own. `getline` writes the bytes of the
line over the first bytes of the buffer and nothing behind them;
`rsscanf` reads bytes until its format is over or it meets a zero.

A buffer is the list of its bytes. Reading or writing behind the last one
has no result, so that a scan of the line alone has one exactly when the
scan of the buffer reads nothing behind the line.
-/

namespace FlowBlaze

namespace Firmware

/-- A `char`. -/
abbrev Byte := BitVec 8

/-- The bytes of a text. -/
def bytes (text : List Char) : List Byte := text.map fun c => BitVec.ofNat 8 c.toNat

/-- `getline`: the buffer afterwards, and the input that is left. The
buffer is not terminated: `msg=0` clears the pointer. -/
def getline : List Byte → List Byte → Option (List Byte × List Byte)
  | _, [] => none
  | msg, ch :: input =>
    if ch = 0x0D ∨ ch = 0xFF then some (msg, input)
    else
      match msg with
      | [] => none
      | _ :: msg => (getline msg input).map fun r => (ch :: r.1, r.2)

/-! ## The conversions -/

/-- The value of a digit of `%d`. -/
def decDigit (c : Byte) : Option (BitVec 32) :=
  if 0x30 ≤ c ∧ c ≤ 0x39 then some ((c - 0x30).setWidth 32) else none

/-- The value of a digit of `%x`. -/
def hexDigit (c : Byte) : Option (BitVec 32) :=
  if 0x30 ≤ c ∧ c ≤ 0x39 then some ((c - 0x30).setWidth 32)
  else if 0x61 ≤ c ∧ c ≤ 0x66 then some ((c - 0x61).setWidth 32 + 10)
  else if 0x41 ≤ c ∧ c ≤ 0x46 then some ((c - 0x41).setWidth 32 + 10)
  else none

/-- The value of a digit of `%b`. -/
def binDigit (c : Byte) : Option (BitVec 32) :=
  if c = 0x30 ∨ c = 0x31 then some ((c - 0x30).setWidth 32) else none

/-- The loop of a conversion: the value, the number of digits, and the
bytes from the one that ends it. -/
def number (digit : Byte → Option (BitVec 32)) (base : BitVec 32) :
    BitVec 32 → ℕ → List Byte → Option (BitVec 32 × ℕ × List Byte)
  | _, _, [] => none
  | value, pos, c :: str =>
    if c = 0 then some (value, pos, c :: str)
    else
      match digit c with
      | some d => number digit base (value * base + d) (pos + 1) str
      | none => some (value, pos, c :: str)

/-- What a conversion stores at its pointer. -/
inductive Stored
  | int (value : BitVec 32)
  | char (c : Byte)
deriving DecidableEq

/-- A conversion without digits ends the scan. -/
def converted (value : BitVec 32) (pos : ℕ) (str : List Byte) : Option (Stored × List Byte) :=
  if pos = 0 then none else some (.int value, str)

/-- `fmt_code` of `%n`, by what the input looks like, and the input that
is left. -/
def inputCode : List Byte → Option (Byte × List Byte)
  | [] => none
  | c :: str =>
    if c = 0x30 then
      match str with
      | [] => none
      | d :: rest => if d = 0x78 ∨ d = 0x58 then some (0x78, rest) else some (0x64, c :: str)
    else if c = 0x62 then some (0x62, str)
    else some (0x64, c :: str)

/-- The `switch` on `fmt_code`: what is stored and the bytes that are left,
or, with no result inside, the end of the scan. -/
def convertCode (code : Byte) (str : List Byte) : Option (Option (Stored × List Byte)) :=
  if code = 0x78 ∨ code = 0x58 then
    (number hexDigit 16 0 0 str).map fun r => converted r.1 r.2.1 r.2.2
  else if code = 0x62 then
    (number binDigit 2 0 0 str).map fun r => converted r.1 r.2.1 r.2.2
  else if code = 0x64 then
    match str with
    | [] => none
    | c :: rest =>
      if c = 0x2D then (number decDigit 10 0 0 rest).map fun r => converted (-r.1) r.2.1 r.2.2
      else (number decDigit 10 0 0 (c :: rest)).map fun r => converted r.1 r.2.1 r.2.2
  else if code = 0x63 then
    match str with
    | [] => none
    | c :: rest => some (some (.char c, c :: rest))
  else some none

/-- A conversion of the format. -/
def convert (code : Byte) (str : List Byte) : Option (Option (Stored × List Byte)) :=
  if code = 0x6E then (inputCode str).bind fun r => convertCode r.1 r.2 else convertCode code str

/-! ## The scan -/

/-- `while (*str == ' ') str++`. -/
def skipSpaces : List Byte → Option (List Byte)
  | [] => none
  | c :: str => if c = 0x20 then skipSpaces str else some (c :: str)

/-- The condition of the loop, `*format != 0 && *str != 0`. -/
def loopTest (format str : List Byte) (body : Option (List Stored)) : Option (List Stored) :=
  match format with
  | [] => some []
  | _ :: _ =>
    match str with
    | [] => none
    | c :: _ => if c = 0 then some [] else body

/-- **An iteration and those after it**: what is stored. Spaces of the
format and of the input are skipped first, each on its own; whatever
ended a conversion is skipped with its letter. -/
def scan : List Byte → List Byte → Option (List Stored)
  | [], _ => some []
  | f :: format, str =>
    if f = 0x20 then scan format str
    else
      match skipSpaces str with
      | none | some [] => none
      | some (c :: rest) =>
        if c = 0 then some []
        else if f = 0x25 then
          match format with
          | [] => some []
          | code :: format =>
            match convert code (c :: rest) with
            | none => none
            | some none => some []
            | some (some (stored, left)) =>
              (loopTest format left.tail (scan format left.tail)).map (stored :: ·)
        else if f = c then loopTest format rest (scan format rest)
        else some []

/-- `rsscanf`. The number it returns is the length. -/
def rsscanf (str format : List Byte) : Option (List Stored) :=
  loopTest format str (scan format str)

/-! ## The command loop -/

/-- `opcode`, `addr` and `value` of an iteration of `main`. -/
structure Command where
  opcode : BitVec 32
  addr : BitVec 32
  value : BitVec 32
deriving DecidableEq

/-- What a variable holds that starts with zero. -/
def assigned : Option Stored → BitVec 32
  | some (.int value) => value
  | _ => 0

/-- `"%d 0x%x 0x%x\n"`. -/
def commandFormat : List Byte := bytes "%d 0x%x 0x%x\n".toList

/-- The command in the buffer. -/
def readCommand (msg : List Byte) : Option Command :=
  (rsscanf msg commandFormat).map fun stored =>
    ⟨assigned stored[0]?, assigned stored[1]?, assigned stored[2]?⟩

example : readCommand (bytes "97 0x1a 0x2b \x00\x00".toList) = some ⟨97, 0x1a, 0x2b⟩ := by
  decide +kernel

/-! ## What the loops do -/

section Loops

variable {digit : Byte → Option (BitVec 32)} {base value : BitVec 32} {pos : ℕ}
  {c : Byte} {line msg rest str digits : List Byte}

/-- **`getline` writes the line** over the first bytes of the buffer. -/
theorem getline_line (hline : ∀ c ∈ line, c ≠ 0x0D ∧ c ≠ 0xFF) (hlen : line.length ≤ msg.length) :
    getline msg (line ++ 0x0D :: rest) = some (line ++ msg.drop line.length, rest) := by
  induction line generalizing msg with
  | nil =>
    rw [List.nil_append, getline.eq_def]
    exact if_pos (Or.inl rfl)
  | cons ch line ih =>
    obtain ⟨hch, hline⟩ := List.forall_mem_cons.mp hline
    cases msg with
    | nil => cases hlen
    | cons b msg =>
      have hnot : ¬ (ch = 0x0D ∨ ch = 0xFF) := fun h => h.elim hch.1 hch.2
      rw [List.cons_append, getline, if_neg hnot, ih hline (Nat.le_of_succ_le_succ hlen)]
      rfl

/-- The value of digits, from a value on. -/
def digitsValue (digit : Byte → Option (BitVec 32)) (base : BitVec 32) (value : BitVec 32)
    (digits : List Byte) : BitVec 32 :=
  digits.foldl (fun v c => v * base + (digit c).getD 0) value

/-- Digits: bytes with a value, and no terminator. -/
def Digits (digit : Byte → Option (BitVec 32)) (digits : List Byte) : Prop :=
  ∀ c ∈ digits, c ≠ 0 ∧ (digit c).isSome = true

theorem number_cons_digit (hc : c ≠ 0 ∧ (digit c).isSome = true) :
    number digit base value pos (c :: str) =
      number digit base (value * base + (digit c).getD 0) (pos + 1) str := by
  obtain ⟨d, hd⟩ := Option.isSome_iff_exists.mp hc.2
  rw [number, if_neg hc.1, hd]
  rfl

/-- The loop runs over digits. -/
theorem number_digits (hdigits : Digits digit digits) :
    number digit base value pos (digits ++ str) =
      number digit base (digitsValue digit base value digits) (pos + digits.length) str := by
  induction digits generalizing value pos with
  | nil => rfl
  | cons c digits ih =>
    obtain ⟨hc, hdigits⟩ := List.forall_mem_cons.mp hdigits
    rw [List.cons_append, number_cons_digit hc, ih hdigits, List.length_cons,
      Nat.add_right_comm]
    rfl

/-- And ends at the first byte that is none. -/
theorem number_end (hc : digit c = none) :
    number digit base value pos (c :: str) = some (value, pos, c :: str) := by
  rw [number, hc, ite_self]

/-- **What the loop returns**: digits, and what begins with no digit. -/
theorem number_eq_some {r : BitVec 32 × ℕ × List Byte} (hzero : digit 0 = none) :
    number digit base value pos str = some r ↔
      ∃ digits c rest, str = digits ++ c :: rest ∧ Digits digit digits ∧ digit c = none ∧
        r = (digitsValue digit base value digits, pos + digits.length, c :: rest) := by
  constructor
  · intro h
    induction str generalizing value pos with
    | nil => cases h
    | cons c str ih =>
      cases hd : digit c with
      | none =>
        rw [number_end hd] at h
        cases h
        exact ⟨[], c, str, rfl, List.forall_mem_nil _, hd, rfl⟩
      | some d =>
        have hc : c ≠ 0 ∧ (digit c).isSome = true := by
          refine ⟨?_, by rw [hd]; rfl⟩
          rintro rfl
          rw [hzero] at hd
          cases hd
        rw [number_cons_digit hc] at h
        obtain ⟨digits, c', rest, rfl, hdigits, hc', rfl⟩ := ih h
        refine ⟨c :: digits, c', rest, rfl, List.forall_mem_cons.mpr ⟨hc, hdigits⟩, hc', ?_⟩
        rw [List.length_cons, Nat.add_right_comm]
        rfl
  · rintro ⟨digits, c, rest, rfl, hdigits, hc, rfl⟩
    rw [number_digits hdigits, number_end hc]

/-- Skipping spaces ends at a byte that is none. -/
theorem skipSpaces_isSome : (skipSpaces str).isSome = true ↔ ∃ c ∈ str, c ≠ 0x20 := by
  induction str with
  | nil => exact iff_of_false (by decide) (by rintro ⟨c, hc, -⟩; cases hc)
  | cons c str ih =>
    rw [skipSpaces]
    by_cases hc : c = 0x20
    · rw [if_pos hc, ih]
      simp [hc]
    · rw [if_neg hc]
      exact iff_of_true rfl ⟨c, List.mem_cons_self, hc⟩

theorem skipSpaces_of_ne (hc : c ≠ 0x20) : skipSpaces (c :: str) = some (c :: str) :=
  if_neg hc

end Loops

/-! ## Steps of the scan -/

section Steps

variable {c f code : Byte} {format str rest left : List Byte} {stored : Stored}

/-- A space of the format. -/
theorem scan_space : scan (0x20 :: format) str = scan format str := by
  rw [scan, if_pos rfl]

/-- A byte that the format and the input share. -/
theorem scan_literal (hspace : c ≠ 0x20) (hpercent : c ≠ 0x25) (hzero : c ≠ 0) :
    scan (c :: format) (c :: str) = loopTest format str (scan format str) := by
  rw [scan.eq_2, if_neg hspace, skipSpaces_of_ne hspace]
  dsimp only
  rw [if_neg hzero, if_neg hpercent, if_pos rfl]

/-- A conversion that stores something. -/
theorem scan_convert (hspace : c ≠ 0x20) (hzero : c ≠ 0)
    (hconv : convert code (c :: str) = some (some (stored, left))) :
    scan (0x25 :: code :: format) (c :: str) =
      (loopTest format left.tail (scan format left.tail)).map (stored :: ·) := by
  rw [scan.eq_2, if_neg (by decide), skipSpaces_of_ne hspace]
  dsimp only
  rw [if_neg hzero, if_pos rfl, hconv]

/-- While neither is over the loop goes on. -/
theorem loopTest_cons {body : Option (List Stored)} (hzero : c ≠ 0) :
    loopTest (f :: format) (c :: str) body = body := if_neg hzero

/-- **`%x` with at least one digit** stores what the loop returns. -/
theorem scan_hex {digits : List Byte} (hdigits : Digits hexDigit digits) (hne : digits ≠ []) :
    scan (0x25 :: 0x78 :: format) (digits ++ str) =
      (number hexDigit 16 (digitsValue hexDigit 16 0 digits) digits.length str).bind fun r =>
        (loopTest format r.2.2.tail (scan format r.2.2.tail)).map (.int r.1 :: ·) := by
  cases digits with
  | nil => exact absurd rfl hne
  | cons c digits =>
    obtain ⟨hc, hcdigit⟩ := List.forall_mem_cons.mp hdigits |>.1
    have hspace : c ≠ 0x20 := by
      rintro rfl
      cases hcdigit
    have hconv : convert 0x78 (c :: (digits ++ str)) =
        (number hexDigit 16 (digitsValue hexDigit 16 0 (c :: digits)) (c :: digits).length
          str).map fun r => converted r.1 r.2.1 r.2.2 := by
      have hnum : number hexDigit 16 0 0 ((c :: digits) ++ str) = _ := number_digits hdigits
      rw [Nat.zero_add] at hnum
      rw [← hnum]
      rfl
    rw [List.cons_append, scan.eq_2, if_neg (by decide), skipSpaces_of_ne hspace]
    dsimp only
    rw [if_neg hc, if_pos rfl, hconv]
    cases hr : number hexDigit 16 (digitsValue hexDigit 16 0 (c :: digits)) (c :: digits).length
        str with
    | none => rfl
    | some r =>
      obtain ⟨more, -, -, -, -, -, rfl⟩ := (number_eq_some rfl).mp hr
      have hpos : (c :: digits).length + more.length ≠ 0 := by
        rw [List.length_cons]
        omega
      rw [Option.map_some, converted, if_neg hpos]
      rfl

end Steps

/-! ## Bytes that are not read -/

section Append

variable {digit : Byte → Option (BitVec 32)} {base value : BitVec 32} {pos : ℕ}
  {code : Byte} {format str left : List Byte} {stored : Stored} {out : List Stored}

/-- Bytes behind those that a conversion reads change nothing. -/
theorem number_append {r : BitVec 32 × ℕ × List Byte}
    (h : number digit base value pos str = some r) (more : List Byte) :
    r.2.2 ≠ [] ∧
      number digit base value pos (str ++ more) = some (r.1, r.2.1, r.2.2 ++ more) := by
  induction str generalizing value pos with
  | nil => cases h
  | cons c str ih =>
    rw [List.cons_append]
    rw [number] at h ⊢
    by_cases hc : c = 0
    · rw [if_pos hc] at h ⊢
      cases h
      exact ⟨List.cons_ne_nil _ _, rfl⟩
    · rw [if_neg hc] at h ⊢
      cases hd : digit c with
      | none =>
        rw [hd] at h
        cases h
        exact ⟨List.cons_ne_nil _ _, rfl⟩
      | some d =>
        rw [hd] at h
        exact ih h

theorem skipSpaces_append (h : skipSpaces str = some left) (more : List Byte) :
    left ≠ [] ∧ skipSpaces (str ++ more) = some (left ++ more) := by
  induction str with
  | nil => cases h
  | cons c str ih =>
    rw [List.cons_append]
    rw [skipSpaces] at h ⊢
    by_cases hc : c = 0x20
    · rw [if_pos hc] at h ⊢
      exact ih h
    · rw [if_neg hc] at h ⊢
      cases h
      exact ⟨List.cons_ne_nil _ _, rfl⟩

theorem inputCode_append {r : Byte × List Byte} (h : inputCode str = some r)
    (more : List Byte) : inputCode (str ++ more) = some (r.1, r.2 ++ more) := by
  cases str with
  | nil => cases h
  | cons c str =>
    rw [List.cons_append]
    unfold inputCode at h ⊢
    dsimp only at h ⊢
    by_cases hzero : c = 0x30
    · rw [if_pos hzero] at h ⊢
      cases str with
      | nil => cases h
      | cons d rest =>
        dsimp only [List.cons_append] at h ⊢
        split at h
        · rename_i hx
          cases h
          rw [if_pos hx]
        · rename_i hx
          cases h
          rw [if_neg hx]
          rfl
    · rw [if_neg hzero] at h ⊢
      split at h
      · rename_i hb
        cases h
        rw [if_pos hb]
      · rename_i hb
        cases h
        rw [if_neg hb]
        rfl

/-- What a conversion leaves, with bytes behind it. -/
def followed (more : List Byte) : Option (Stored × List Byte) → Option (Stored × List Byte) :=
  Option.map fun r => (r.1, r.2 ++ more)

/-- What a conversion leaves is not empty: it has read the first byte. -/
def Leaves (r : Option (Stored × List Byte)) : Prop := ∀ stored left, r = some (stored, left) →
  left ≠ []

theorem map_number_append {f : BitVec 32 → BitVec 32} {r : Option (Stored × List Byte)}
    (h : ((number digit base value pos str).map fun r => converted (f r.1) r.2.1 r.2.2) = some r)
    (more : List Byte) :
    Leaves r ∧
      ((number digit base value pos (str ++ more)).map fun r =>
        converted (f r.1) r.2.1 r.2.2) = some (followed more r) := by
  obtain ⟨n, hn, rfl⟩ := Option.map_eq_some_iff.mp h
  obtain ⟨hleft, happ⟩ := number_append hn more
  rw [happ]
  unfold converted
  refine ⟨fun stored left hr => ?_, ?_⟩
  · split at hr
    · cases hr
    · cases hr
      exact hleft
  · rw [Option.map_some]
    split <;> rfl

theorem convertCode_append {r : Option (Stored × List Byte)} (h : convertCode code str = some r)
    (more : List Byte) : Leaves r ∧ convertCode code (str ++ more) = some (followed more r) := by
  unfold convertCode at h ⊢
  split
  · rename_i hx
    rw [if_pos hx] at h
    exact map_number_append (f := id) h more
  rename_i hx
  rw [if_neg hx] at h
  split
  · rename_i hb
    rw [if_pos hb] at h
    exact map_number_append (f := id) h more
  rename_i hb
  rw [if_neg hb] at h
  split
  · rename_i hd
    rw [if_pos hd] at h
    cases str with
    | nil => cases h
    | cons c rest =>
      dsimp only [List.cons_append] at h ⊢
      split
      · rename_i hneg
        rw [if_pos hneg] at h
        exact map_number_append (f := fun v => -v) h more
      · rename_i hneg
        rw [if_neg hneg] at h
        exact @map_number_append _ _ _ _ (c :: rest) id _ h more
  rename_i hd
  rw [if_neg hd] at h
  split
  · rename_i hc
    rw [if_pos hc] at h
    cases str with
    | nil => cases h
    | cons c rest =>
      cases h
      refine ⟨fun stored left hr => ?_, rfl⟩
      cases hr
      exact List.cons_ne_nil _ _
  · rename_i hc
    rw [if_neg hc] at h
    cases h
    exact ⟨(fun _ _ hr => by cases hr), rfl⟩

theorem convert_append {r : Option (Stored × List Byte)} (h : convert code str = some r)
    (more : List Byte) : Leaves r ∧ convert code (str ++ more) = some (followed more r) := by
  unfold convert at h ⊢
  split
  · rename_i hn
    rw [if_pos hn] at h
    obtain ⟨d, hd, hr⟩ := Option.bind_eq_some_iff.mp h
    rw [inputCode_append hd more]
    exact convertCode_append hr more
  · rename_i hn
    rw [if_neg hn] at h
    exact convertCode_append h more

theorem loopTest_append {body body' : Option (List Stored)}
    (h : loopTest format str body = some out) (hbody : body = some out → body' = some out)
    (more : List Byte) :
    loopTest format (str ++ more) body' = some out := by
  unfold loopTest at h ⊢
  cases format with
  | nil => exact h
  | cons f format =>
    cases str with
    | nil => cases h
    | cons c str =>
      dsimp only [List.cons_append] at h ⊢
      split
      · rename_i hc
        rw [if_pos hc] at h
        exact h
      · rename_i hc
        rw [if_neg hc] at h
        exact hbody h

/-- **A scan that ends reads nothing behind its bytes.** -/
theorem scan_append (h : scan format str = some out) (more : List Byte) :
    scan format (str ++ more) = some out := by
  fun_induction scan format str generalizing out with
  | case1 str =>
    cases h
    unfold scan
    rfl
  | case2 format str ih =>
    rw [scan_space]
    exact ih h
  | case3 | case4 | case7 => cases h
  | case5 f format str hf rest hskip =>
    cases h
    rw [scan.eq_2, if_neg hf, (skipSpaces_append hskip more).2]
    exact if_pos rfl
  | case6 str c rest hskip hc hf =>
    cases h
    rw [scan.eq_2, if_neg hf, (skipSpaces_append hskip more).2]
    dsimp only [List.cons_append]
    rw [if_neg hc, if_pos rfl]
  | case8 str c rest hskip hc code format hconv hf =>
    cases h
    rw [scan.eq_2, if_neg hf, (skipSpaces_append hskip more).2]
    dsimp only [List.cons_append]
    rw [if_neg hc, if_pos rfl, ← List.cons_append, (convert_append hconv more).2]
    rfl
  | case9 str c rest hskip hc code format stored left hconv hf ih =>
    obtain ⟨hleft, happ⟩ := convert_append hconv more
    obtain ⟨tail, htail, rfl⟩ := Option.map_eq_some_iff.mp h
    rw [scan.eq_2, if_neg hf, (skipSpaces_append hskip more).2]
    dsimp only [List.cons_append]
    rw [if_neg hc, if_pos rfl, ← List.cons_append, happ]
    dsimp only [followed, Option.map_some]
    rw [List.tail_append_of_ne_nil (hleft _ _ rfl), loopTest_append htail ih more]
    rfl
  | case10 format str c rest hskip hc hf hpercent ih =>
    rw [scan.eq_2, if_neg hf, (skipSpaces_append hskip more).2]
    dsimp only [List.cons_append]
    rw [if_neg hc, if_neg hpercent, if_pos rfl]
    exact loopTest_append h ih more
  | case11 f format str hf c rest hskip hc hpercent hne =>
    cases h
    rw [scan.eq_2, if_neg hf, (skipSpaces_append hskip more).2]
    dsimp only [List.cons_append]
    rw [if_neg hc, if_neg hpercent, if_neg hne]

/-- The same, of the whole scan. -/
theorem rsscanf_append (h : rsscanf str format = some out) (more : List Byte) :
    rsscanf (str ++ more) format = some out :=
  loopTest_append h (fun hbody => scan_append hbody more) more

end Append

end Firmware

end FlowBlaze
