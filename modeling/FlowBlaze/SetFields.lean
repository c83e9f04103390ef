import FlowBlaze.Common.Thread
import FlowBlaze.Hw.ModifySpec
import FlowBlaze.Loader.RowActions
/-!
# Fields set by a row

From `write_actions` to the operation that `FlowBlaze_core` presents. A
row with a field to set is never written with it: the loader's call of
`hton` is an exception. It is written without, if the loop breaks at an
action before.
-/

namespace FlowBlaze

open Hw Loader

/-- A packet field that is set to a constant: its first byte, its length and
the value. -/
structure SetTo where
  start : ℕ
  length : ℕ
  value : ℕ

/-- **The action sets a packet field to a constant.** -/
structure RowSets (op0 op2 : RowOperand) (f : SetTo) : Prop where
  field : op0.type = "XTRA_PKT_FIELD"
  constant : op2.type = "XTRA_INTEGER_CONST"
  start : op0.start = some f.start
  length : op0.length = some f.length
  value : op2.value = some f.value

/-- A run that presents the operation of these words. -/
def Presents (action actionValue res1 : BitVec 32) (xs : List ModifyInput) : Prop :=
  Presented none (xs.filter (·.transfers)) ∧ ∀ x ∈ xs, x.inOffset = modifyOffset actionValue ∧
    x.inSize = modifySize actionValue ∧ x.inField = modifyField action actionValue res1

/-- **The words set the field**: they are decoded into an operation at its
first byte, of its length, with the bytes of the value in network order;
and with this operation presented the packets leave with them. -/
structure SetsField (action actionValue res1 : BitVec 32) (f : SetTo) : Prop where
  enabled : enableModify action = true
  offset : (modifyOffset actionValue).toNat = f.start
  size : sizeBytes (modifySize actionValue) = f.length
  field : ∀ i < f.length, Common.byteOf (modifyField action actionValue res1) i =
    BitVec.ofNat 8 (f.value / 256 ^ (f.length - 1 - i))
  transmitted : ∀ M : ModifyField, M.AfterReset → ∀ xs, Presents action actionValue res1 xs →
    Overwrites none (xs.filter (·.transfers)) (M.leaves xs)

/-- **A row is encoded or refused**: if it is written, its words set every
field that it sets. -/
def EncodedOrRefused (entryNum : ℕ) (actions : List RowAction) (nextState currState : ℕ) : Prop :=
  ∀ writes, writeActions entryNum actions nextState currState = some writes →
    ∀ op0 op2 f, .setfield op0 op2 ∈ actions → RowSets op0 op2 f →
      ∃ address address' word word', ram3 entryNum = some address ∧ ram4 entryNum = some address' ∧
        (address, word) ∈ writes ∧ (address', word') ∈ writes ∧
        ∀ res1, SetsField (BitVec.ofNat 32 word) (BitVec.ofNat 32 word') res1 f

/-! ## Turns of the loop -/

namespace Loader

/-- An action behind which the loop goes on. -/
def RowAction.goesOn : RowAction → Bool
  | .update _ _ => true
  | .sendpkt op1 => op1.value.any fun port => port == 255 || decide (port < 4)
  | .setfield _ _ => false
  | .pushfield op0 op2 => op0.type == "XTRA_PKT_FIELD" && op2.type == "XTRA_INTEGER_CONST" &&
      op0.start.isSome && op0.length.isSome && op2.value.isSome
  | .other _ => true

/-- An action at which the loop breaks: a port that there is not, or a field
that is no packet field or no constant. -/
def RowAction.breaksLoop : RowAction → Bool
  | .sendpkt op1 => op1.value.any fun port => port != 255 && !decide (port < 4)
  | .setfield op0 op2 => op0.type != "XTRA_PKT_FIELD" || op2.type != "XTRA_INTEGER_CONST"
  | .pushfield op0 op2 => op0.type != "XTRA_PKT_FIELD" || op2.type != "XTRA_INTEGER_CONST"
  | _ => false

/-- **A field to set stands behind an action at which the loop breaks.** -/
def SetBehindBreak (actions : List RowAction) : Prop :=
  ∃ earlier a later, actions = earlier ++ a :: later ∧ (∀ b ∈ earlier, b.goesOn = true) ∧
    a.breaksLoop = true ∧ ∃ op0 op2, .setfield op0 op2 ∈ later

section Turns

variable {values values' : RamValues} {a : RowAction} {actions : List RowAction}
  {op0 op2 : RowOperand} {f : SetTo}

/-- Sending a packet: to a port that there is, or not. -/
theorem sendpkt_turn (values : RamValues) {op1 : RowOperand} {port : ℕ}
    (hport : op1.value = some port) :
    (port = 255 ∨ port < 4) ∧ (∃ bits ∈ [0, portFlood, 0x01, 0x04, 0x10],
      actionTurn values (.sendpkt op1) =
        some (.goesOn { values with ram3Value := values.ram3Value ||| (bits <<< 24) })) ∨
      (¬(port = 255 ∨ port < 4) ∧ actionTurn values (.sendpkt op1) = some (.breaks values)) := by
  have hturn : actionTurn values (.sendpkt op1) =
      (if port = 255 then
        some (.goesOn { values with ram3Value := values.ram3Value ||| (portFlood <<< 24) })
      else if ¬port < 4 then some (.breaks values)
      else if port ≠ 0 then (ports[port - 1]?).map fun bits =>
        .goesOn { values with ram3Value := values.ram3Value ||| (bits <<< 24) }
      else some (.goesOn values)) := by
    refine (congrArg (Option.bind · _) hport).trans ?_
    rw [Option.bind_some]
    cases ports[port - 1]? <;> rfl
  rw [hturn]
  by_cases hflood : port = 255
  · rw [if_pos hflood]
    exact .inl ⟨.inl hflood, portFlood, by decide, rfl⟩
  · rw [if_neg hflood]
    by_cases hlt : port < 4
    · rw [if_neg (not_not_intro hlt)]
      refine .inl ⟨.inr hlt, ?_⟩
      obtain rfl | rfl | rfl | rfl : port = 0 ∨ port = 1 ∨ port = 2 ∨ port = 3 := by omega
      · refine ⟨0, by decide, ?_⟩
        rw [if_neg (by decide), Nat.zero_shiftLeft, Nat.or_zero]
      · exact ⟨0x01, by decide, rfl⟩
      · exact ⟨0x04, by decide, rfl⟩
      · exact ⟨0x10, by decide, rfl⟩
    · rw [if_pos hlt]
      exact .inr ⟨fun h => h.elim hflood hlt, rfl⟩

/-- Setting a field ends the loop, or is an exception. -/
theorem setfield_turn (op0 op2 : RowOperand) (values : RamValues) :
    (∃ values', actionTurn values (.setfield op0 op2) = some (.breaks values') ∧
        (op0.type ≠ "XTRA_PKT_FIELD" ∨ op2.type ≠ "XTRA_INTEGER_CONST")) ∨
      (actionTurn values (.setfield op0 op2) = none ∧
        op0.type = "XTRA_PKT_FIELD" ∧ op2.type = "XTRA_INTEGER_CONST") := by
  unfold actionTurn
  by_cases hfield : op0.type = "XTRA_PKT_FIELD"
  · by_cases hconstant : op2.type = "XTRA_INTEGER_CONST"
    · refine .inr ⟨?_, hfield, hconstant⟩
      simp only [hfield, hconstant, ne_eq, not_true_eq_false, if_false, Option.bind_eq_bind]
      cases op0.start <;> cases op0.length <;> cases op2.value <;> rfl
    · exact .inl ⟨_, (if_neg (not_not_intro hfield)).trans (if_pos hconstant), .inr hconstant⟩
  · exact .inl ⟨_, if_pos hfield, .inl hfield⟩

/-- What is foretold of a turn. -/
def Foretold (a : RowAction) (goesOn breaksLoop : Bool) : Prop :=
  a.goesOn = goesOn ∧ a.breaksLoop = breaksLoop

/-- Pushing a field goes on if it can be read. -/
theorem pushfield_turn (op0 op2 : RowOperand) (values : RamValues) :
    (∃ word, actionTurn values (.pushfield op0 op2) =
        some (.goesOn ⟨values.ram3Value ||| pushField, values.ram4Value ||| word⟩) ∧
        Foretold (.pushfield op0 op2) true false) ∨
      (actionTurn values (.pushfield op0 op2) =
        some (.breaks { values with ram3Value := values.ram3Value ||| pushField }) ∧
        Foretold (.pushfield op0 op2) false true) ∨
      (actionTurn values (.pushfield op0 op2) = none ∧
        Foretold (.pushfield op0 op2) false false) := by
  unfold actionTurn Foretold RowAction.goesOn RowAction.breaksLoop
  by_cases hfield : op0.type = "XTRA_PKT_FIELD"
  · by_cases hconstant : op2.type = "XTRA_INTEGER_CONST"
    · simp only [hfield, hconstant, ne_eq, not_true_eq_false, if_false, Option.bind_eq_bind]
      cases op0.start with
      | none => exact .inr (.inr ⟨rfl, by simp⟩)
      | some offset =>
        cases op0.length with
        | none => exact .inr (.inr ⟨rfl, by simp⟩)
        | some length =>
          cases op2.value with
          | none => exact .inr (.inr ⟨rfl, by simp⟩)
          | some value => exact .inl ⟨_, rfl, by simp⟩
    · refine .inr (.inl ⟨(if_neg (not_not_intro hfield)).trans (if_pos hconstant), ?_⟩)
      simp [hconstant]
  · refine .inr (.inl ⟨if_pos hfield, ?_⟩)
    simp [hfield]

/-- **How a turn ends** can be foretold. -/
theorem actionTurn_cases (values : RamValues) (a : RowAction) :
    (∃ values', actionTurn values a = some (.goesOn values') ∧ Foretold a true false) ∨
      (∃ values', actionTurn values a = some (.breaks values') ∧ Foretold a false true) ∨
      (actionTurn values a = none ∧ Foretold a false false) := by
  cases a with
  | update action h => exact .inl ⟨_, rfl, rfl, rfl⟩
  | other opcode => exact .inl ⟨_, rfl, rfl, rfl⟩
  | sendpkt op1 =>
    unfold Foretold RowAction.goesOn RowAction.breaksLoop
    cases hport : op1.value with
    | none => exact .inr (.inr ⟨congrArg (Option.bind · _) hport, by simp [hport]⟩)
    | some port =>
      rcases sendpkt_turn values hport with ⟨hknown, bits, -, hturn⟩ | ⟨hunknown, hturn⟩
      · refine .inl ⟨_, hturn, ?_⟩
        simp only [hport, Option.any_some]
        rcases hknown with rfl | hlt
        · decide
        · simp [hlt]
      · refine .inr (.inl ⟨_, hturn, ?_⟩)
        rw [not_or] at hunknown
        simp [hport, hunknown.1, hunknown.2]
  | setfield op0 op2 =>
    unfold Foretold RowAction.goesOn RowAction.breaksLoop
    rcases setfield_turn op0 op2 values with ⟨values', hturn, htypes⟩ |
      ⟨hturn, htypes⟩
    · exact .inr (.inl ⟨values', hturn, rfl, by simpa using htypes⟩)
    · exact .inr (.inr ⟨hturn, rfl, by simp [htypes.1, htypes.2]⟩)
  | pushfield op0 op2 =>
    rcases pushfield_turn op0 op2 values with ⟨word, hturn, htold⟩ |
      ⟨hturn, htold⟩ | h
    · exact .inl ⟨_, hturn, htold⟩
    · exact .inr (.inl ⟨_, hturn, htold⟩)
    · exact .inr (.inr h)

/-- The loop over a setting of a field. -/
theorem gatherActions_setfield (values : RamValues) (h : RowSets op0 op2 f) :
    gatherActions values (.setfield op0 op2 :: actions) = none := by
  rcases setfield_turn op0 op2 values with ⟨values', -, htypes⟩ | ⟨hturn, -⟩
  · exact (htypes.elim (· h.field) (· h.constant)).elim
  · unfold gatherActions
    rw [hturn]
    rfl

/-- **A row that is gathered** has its fields to set behind a break. -/
theorem setBehindBreak_of_gatherActions
    (hproper : ∀ op0 op2, .setfield op0 op2 ∈ actions → ∃ f, RowSets op0 op2 f)
    (h : gatherActions values actions = some values') (hmem : .setfield op0 op2 ∈ actions) :
    SetBehindBreak actions := by
  induction actions generalizing values with
  | nil => cases hmem
  | cons a actions ih =>
    have hne : .setfield op0 op2 ≠ a := fun heq => by
      obtain ⟨f, hf⟩ := hproper op0 op2 hmem
      rw [← heq, gatherActions_setfield values hf] at h
      cases h
    have hrest : .setfield op0 op2 ∈ actions := (List.mem_cons.mp hmem).resolve_left hne
    unfold gatherActions at h
    rcases actionTurn_cases values a with ⟨values'', hturn, hgoes, -⟩ |
      ⟨values'', -, -, hbreaks⟩ | ⟨hturn, -⟩
    · rw [hturn, Option.bind_some] at h
      obtain ⟨earlier, b, later, hsplit, hearlier, hb, hlater⟩ :=
        ih (fun op0 op2 hmem => hproper op0 op2 (List.mem_cons_of_mem _ hmem)) h hrest
      refine ⟨a :: earlier, b, later, by rw [hsplit]; rfl, ?_, hb, hlater⟩
      rw [List.forall_mem_cons]
      exact ⟨hgoes, hearlier⟩
    · exact ⟨[], a, actions, rfl, fun b hb => absurd hb List.not_mem_nil, hbreaks, op0, op2, hrest⟩
    · rw [hturn] at h
      cases h

/-- The byte that tells whether a field is modified is none of those that
say so. -/
def Unmodified (values : RamValues) : Prop :=
  (BitVec.ofNat 32 values.ram3Value).extractLsb' 16 8 = 0x00 ∨
    (BitVec.ofNat 32 values.ram3Value).extractLsb' 16 8 = 0x0A

/-- It is kept by bits elsewhere, and by those of a pushed field. -/
theorem Unmodified.or (h : Unmodified values) {bits ram4 : ℕ}
    (hbits : (BitVec.ofNat 32 bits).extractLsb' 16 8 = 0x00 ∨
      (BitVec.ofNat 32 bits).extractLsb' 16 8 = 0x0A) :
    Unmodified ⟨values.ram3Value ||| bits, ram4⟩ := by
  unfold Unmodified at *
  have hor : (BitVec.ofNat 32 (values.ram3Value ||| bits)).extractLsb' 16 8 =
      (BitVec.ofNat 32 values.ram3Value).extractLsb' 16 8 |||
        (BitVec.ofNat 32 bits).extractLsb' 16 8 := by
    rw [BitVec.ofNat_or, BitVec.extractLsb'_or]
  rw [hor]
  rcases h with h | h <;> rcases hbits with hbits | hbits <;> rw [h, hbits] <;> decide

/-- **An action that sets no field** does not have one modified. -/
theorem Unmodified.turn (h : Unmodified values) (ha : ∀ op0 op2, a ≠ .setfield op0 op2)
    (hturn : actionTurn values a = some (.goesOn values') ∨
      actionTurn values a = some (.breaks values')) : Unmodified values' := by
  cases a with
  | setfield op0 op2 => exact absurd rfl (ha op0 op2)
  | update action hupdate =>
    rcases hturn with hturn | hturn <;> cases hturn
    exact h
  | other opcode =>
    rcases hturn with hturn | hturn <;> cases hturn
    exact h
  | sendpkt op1 =>
    cases hport : op1.value with
    | none =>
      have hnone : actionTurn values (.sendpkt op1) = none := congrArg (Option.bind · _) hport
      rw [hnone] at hturn
      rcases hturn with hturn | hturn <;> cases hturn
    | some port =>
      rcases sendpkt_turn values hport with ⟨-, bits, hbits, hsend⟩ | ⟨-, hsend⟩
      · rw [hsend] at hturn
        rcases hturn with hturn | hturn <;> cases hturn
        have hall : ∀ bits ∈ [0, portFlood, 0x01, 0x04, 0x10],
            (BitVec.ofNat 32 (bits <<< 24)).extractLsb' 16 8 = 0x00 := by decide
        exact h.or (.inl (hall bits hbits))
      · rw [hsend] at hturn
        rcases hturn with hturn | hturn <;> cases hturn
        exact h
  | pushfield op0 op2 =>
    have hpush : ∀ ram4, Unmodified ⟨values.ram3Value ||| pushField, ram4⟩ :=
      fun ram4 => h.or (.inr (by decide))
    rcases pushfield_turn op0 op2 values with ⟨word, hgoes, -⟩ |
      ⟨hbreaks, -⟩ | ⟨hnone, -⟩
    · rw [hgoes] at hturn
      rcases hturn with hturn | hturn <;> cases hturn
      exact hpush _
    · rw [hbreaks] at hturn
      rcases hturn with hturn | hturn <;> cases hturn
      exact hpush _
    · rw [hnone] at hturn
      rcases hturn with hturn | hturn <;> cases hturn

/-- **A row with a field to set behind a break** is gathered, and modifies
none. -/
theorem gatherActions_of_setBehindBreak
    (hproper : ∀ op0 op2, .setfield op0 op2 ∈ actions → ∃ f, RowSets op0 op2 f)
    (h : SetBehindBreak actions) (hvalues : Unmodified values) :
    ∃ values', gatherActions values actions = some values' ∧ Unmodified values' := by
  obtain ⟨earlier, a, later, rfl, hearlier, hbreaks, -⟩ := h
  induction earlier generalizing values with
  | nil =>
    rw [List.nil_append] at hproper ⊢
    unfold gatherActions
    rcases actionTurn_cases values a with ⟨_, -, -, hno⟩ | ⟨values', hturn, -⟩ | ⟨-, -, hno⟩
    · rw [hbreaks] at hno
      cases hno
    · rw [hturn]
      refine ⟨values', rfl, hvalues.turn (fun op0 op2 heq => ?_) (.inr hturn)⟩
      obtain ⟨f, hf⟩ := hproper op0 op2 (heq ▸ List.mem_cons_self)
      rcases setfield_turn op0 op2 values with ⟨_, -, htypes⟩ | ⟨hnone, -⟩
      · exact (htypes.elim (· hf.field) (· hf.constant)).elim
      · rw [heq, hnone] at hturn
        cases hturn
    · rw [hbreaks] at hno
      cases hno
  | cons b earlier ih =>
    rw [List.forall_mem_cons] at hearlier
    rw [List.cons_append] at hproper ⊢
    unfold gatherActions
    rcases actionTurn_cases values b with ⟨values', hturn, -⟩ | ⟨_, -, hno, -⟩ | ⟨-, hno, -⟩
    · rw [hturn]
      refine ih (hvalues.turn (fun op0 op2 heq => ?_) (.inl hturn))
        (fun op0 op2 hmem => hproper op0 op2 (List.mem_cons_of_mem _ hmem)) hearlier.2
      rw [heq] at hearlier
      cases hearlier.1
    · rw [hearlier.1] at hno
      cases hno
    · rw [hearlier.1] at hno
      cases hno

end Turns

end Loader

/-! ## Rows -/

section Rows

variable {entryNum nextState currState : ℕ} {actions : List RowAction}

/-- **What is written of a row**, if it is. -/
theorem writeActions_eq_some_iff {writes : List (ℕ × ℕ)} :
    writeActions entryNum actions nextState currState = some writes ↔
      entryNum < 32 ∧ ∃ written words values,
        pipeAluActionsAllocator (updatesOf actions) currState = some (written, words) ∧
        gatherActions ⟨hashInsert, 0⟩ actions = some values ∧
        writes = written ++ [(0x80021000 + entryNum * 4,
            (nextState &&& 0xff) ||| (entryNum <<< 8)),
          (0x80022000 + entryNum * 4, values.ram3Value),
          (0x80023000 + entryNum * 4, values.ram4Value)] ++
            (List.finRange 9).map fun i : Fin 9 =>
              (0x80030000 + entryNum * 64 + i.val * 4, words i) := by
  unfold writeActions
  by_cases hentry : entryNum < 32
  · have hram2 : ram2 entryNum = some (0x80021000 + entryNum * 4) := if_pos hentry
    have hram3 : ram3 entryNum = some (0x80022000 + entryNum * 4) := if_pos hentry
    have hram4 : ram4 entryNum = some (0x80023000 + entryNum * 4) := if_pos hentry
    have hpipealu : pipealu entryNum = some (0x80030000 + entryNum * 64) := if_pos (by omega)
    simp only [hram2, hram3, hram4, hpipealu, Option.bind_eq_bind, Option.bind_some,
      Option.bind_eq_some_iff, hentry, true_and, Option.pure_def, Option.some.injEq]
    constructor
    · rintro ⟨⟨written, words⟩, hallocated, values, hgathered, rfl⟩
      exact ⟨written, words, values, hallocated, hgathered, rfl⟩
    · rintro ⟨written, words, values, hallocated, hgathered, rfl⟩
      exact ⟨(written, words), hallocated, values, hgathered, rfl⟩
  · refine iff_of_false (fun h => ?_) fun h => hentry h.1
    have hnone : ram2 entryNum = none := if_neg hentry
    rw [hnone] at h
    cases h

/-- The allocator writes global registers. -/
theorem mem_grs_of_allocated {updates : List FbAction} {written : List (ℕ × ℕ)}
    {words : PipeAluWords}
    (h : pipeAluActionsAllocator updates currState = some (written, words)) :
    ∀ w ∈ written, w.1 ∈ grs := by
  obtain ⟨P, hP, h⟩ := Option.bind_eq_some_iff.mp h
  split at h
  · cases h
  · obtain ⟨_, -, h⟩ := Option.bind_eq_some_iff.mp h
    obtain ⟨_, -, h⟩ := Option.map_eq_some_iff.mp h
    cases h
    refine Common.foldlM_invariant (I := fun P : Packing => ∀ w ∈ P.written, w.1 ∈ grs)
      (fun P a Q hP h => ?_) (fun w hw => absurd hw List.not_mem_nil) hP
    unfold packAction at h
    split at h
    · cases h
      exact hP
    · split at h
      · simp only [Option.bind_eq_bind, Option.bind_eq_some_iff] at h
        obtain ⟨name, -, addr, haddr, value, -, h⟩ := h
        cases h
        intro w hw
        rcases List.mem_append.mp hw with hw | hw
        · exact hP w hw
        · rw [List.mem_singleton.mp hw]
          exact List.mem_of_getElem? haddr
      · cases h
        exact hP

/-- **A row is written to `RAM3` once.** -/
theorem ram3Value_of_mem {writes : List (ℕ × ℕ)} {address word : ℕ}
    (h : writeActions entryNum actions nextState currState = some writes)
    (haddress : ram3 entryNum = some address) (hmem : (address, word) ∈ writes) :
    ∃ values, gatherActions ⟨hashInsert, 0⟩ actions = some values ∧ word = values.ram3Value := by
  obtain ⟨hentry, written, words, values, hallocated, hgathered, rfl⟩ :=
    writeActions_eq_some_iff.mp h
  have hbase : ram3 entryNum = some (0x80022000 + entryNum * 4) := if_pos hentry
  rw [hbase, Option.some.injEq] at haddress
  refine ⟨values, hgathered, ?_⟩
  rcases List.mem_append.mp hmem with hmem | hmem
  · rcases List.mem_append.mp hmem with hmem | hmem
    · have hgrs := mem_grs_of_allocated hallocated _ hmem
      have hall : ∀ a ∈ grs, a < 0x80001000 := by decide
      have := hall _ hgrs
      dsimp only at this
      omega
    · simp only [List.mem_cons, Prod.mk.injEq, List.not_mem_nil, or_false] at hmem
      rcases hmem with ⟨h, -⟩ | ⟨-, h⟩ | ⟨h, -⟩
      · omega
      · exact h
      · omega
  · obtain ⟨i, -, hi⟩ := List.mem_map.mp hmem
    have := congrArg Prod.fst hi
    dsimp only at this
    omega

/-- **When a row is encoded or refused**: its number is not one of a row, or
its updates cannot be allocated, or no field to set stands behind an
action at which the loop breaks. -/
theorem encodedOrRefused_iff
    (hproper : ∀ op0 op2, .setfield op0 op2 ∈ actions → ∃ f, RowSets op0 op2 f) :
    EncodedOrRefused entryNum actions nextState currState ↔
      ¬entryNum < 32 ∨ pipeAluActionsAllocator (updatesOf actions) currState = none ∨
        ¬SetBehindBreak actions := by
  constructor
  · intro hencoded
    by_contra hno
    simp only [not_or, not_not] at hno
    obtain ⟨hentry, hallocated, hbehind⟩ := hno
    obtain ⟨⟨written, words⟩, hallocated⟩ := Option.ne_none_iff_exists'.mp hallocated
    obtain ⟨values, hgathered, hvalues⟩ := 
      @gatherActions_of_setBehindBreak ⟨hashInsert, 0⟩ _ hproper hbehind (.inl (by decide))
    obtain ⟨earlier, a, later, rfl, -, -, op0, op2, hmem⟩ := hbehind
    have hmem' : .setfield op0 op2 ∈ earlier ++ a :: later :=
      List.mem_append_right _ (List.mem_cons_of_mem _ hmem)
    obtain ⟨f, hf⟩ := hproper op0 op2 hmem'
    have hwrites := (@writeActions_eq_some_iff _ nextState _ _ _).mpr
      ⟨hentry, written, words, values, hallocated, hgathered, rfl⟩
    obtain ⟨address, _, word, word', haddress, -, hword, -, hsets⟩ :=
      hencoded _ hwrites op0 op2 f hmem' hf
    obtain ⟨values', hgathered', rfl⟩ := ram3Value_of_mem hwrites haddress hword
    rw [hgathered] at hgathered'
    cases hgathered'
    have henabled := (hsets 0).enabled
    unfold enableModify at henabled
    rcases hvalues with hbyte | hbyte <;> rw [hbyte] at henabled <;> revert henabled <;> decide
  · intro h writes hwrites op0 op2 f hmem hf
    obtain ⟨hentry, written, words, values, hallocated, hgathered, -⟩ :=
      writeActions_eq_some_iff.mp hwrites
    rcases h with h | h | h
    · exact absurd hentry h
    · rw [hallocated] at h
      cases h
    · exact absurd (setBehindBreak_of_gatherActions hproper hgathered hmem) h

end Rows

/-! ## Two rows -/

/-- `setField` of the EtherType. -/
def setEthType : RowAction :=
  .setfield ⟨"XTRA_PKT_FIELD", some 12, some 2, none⟩
    ⟨"XTRA_INTEGER_CONST", none, none, some 0x0800⟩

/-- Sending to a port. -/
def sendTo (port : ℕ) : RowAction := .sendpkt ⟨"XTRA_INTEGER_CONST", none, none, some port⟩

theorem rowSets_of_mem {op0 op2 : RowOperand} {port : ℕ}
    (h : .setfield op0 op2 ∈ [sendTo port, setEthType]) : ∃ f, RowSets op0 op2 f := by
  rcases List.mem_cons.mp h with h | h
  · cases h
  · cases List.mem_singleton.mp h
    exact ⟨⟨12, 2, 0x0800⟩, rfl, rfl, rfl, rfl, rfl⟩

/-- A row that sends the packet to a port that there is is refused. -/
theorem encodedOrRefused_known :
    (∀ op0 op2, .setfield op0 op2 ∈ [sendTo 1, setEthType] → ∃ f, RowSets op0 op2 f) ∧
      EncodedOrRefused 0 [sendTo 1, setEthType] 0 0 := by
  refine ⟨fun _ _ => rowSets_of_mem, (encodedOrRefused_iff fun _ _ => rowSets_of_mem).mpr ?_⟩
  refine .inr (.inr ?_)
  rintro ⟨earlier, a, later, hsplit, -, hbreaks, -⟩
  have ha : a ∈ [sendTo 1, setEthType] := hsplit ▸ List.mem_append_right _ List.mem_cons_self
  rcases List.mem_cons.mp ha with rfl | ha
  · cases hbreaks
  · cases List.mem_singleton.mp ha
    revert hbreaks
    decide

/-- **Behind a port that there is not** the field is not set, and the row is
written. -/
theorem not_encodedOrRefused :
    (∃ writes, writeActions 0 [sendTo 7, setEthType] 0 0 = some writes) ∧
      ¬EncodedOrRefused 0 [sendTo 7, setEthType] 0 0 := by
  obtain ⟨writes, hwrites⟩ : ∃ writes, writeActions 0 [sendTo 7, setEthType] 0 0 = some writes :=
    ⟨_, rfl⟩
  refine ⟨⟨writes, hwrites⟩, fun h => ?_⟩
  obtain ⟨address, _, word, word', haddress, -, hword, -, hsets⟩ :=
    h writes hwrites _ _ ⟨12, 2, 0x0800⟩ (List.mem_cons_of_mem _ List.mem_cons_self)
      ⟨rfl, rfl, rfl, rfl, rfl⟩
  obtain ⟨values, hgathered, rfl⟩ := ram3Value_of_mem hwrites haddress hword
  cases hgathered
  have henabled := (hsets 0).enabled
  revert henabled
  decide

end FlowBlaze
