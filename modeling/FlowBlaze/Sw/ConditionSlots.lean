import FlowBlaze.Sw.LoaderBounds
/-!
# The slots of the conditions

A condition is stored in the slot that its id names, while the array has a
slot for each element and the copy runs over the slots. Nothing checks the
ids: a slot is written before anything else is known of an element, and
one that no id names is copied all the same. The copy itself has room for
`MAX_CONDITIONS`.
-/

namespace FlowBlaze

namespace Sw

open Common Json

variable (old : ℕ → XfsmCondition) (conditions : Option Json)

/-- The slots that the loop writes before it ends or exits, in this order:
an element's slot is allocated once its id is known. -/
def slotsFrom : ℕ → List Json → List (BitVec 32)
  | _, [] => []
  | i, json :: js =>
    match uintItem 32 "id" (some json) with
    | none => []
    | some id => id :: if (readCondition (old i) json).isSome then slotsFrom (i + 1) js else []

/-- The slots that `json_to_conditions` writes. -/
def slotsWritten : List (BitVec 32) :=
  if (children conditions).length < 255 then slotsFrom old 0 (children conditions) else []

/-- The copy of the slots in `json_to_table`, into memory for so many
conditions. A slot that was never written holds no pointer. -/
def copySlots (written : List (BitVec 32 × XfsmCondition)) : Option (List XfsmCondition) :=
  if written.length ≤ maxConditions then
    (List.range written.length).mapM (conditionAt written)
  else none

/-- **The ids are one to one**: each slot is the id of an element. There
are as many slots as elements. -/
def IdsOneToOne : Prop :=
  ∀ j < (children conditions).length, ∃ json ∈ children conditions,
    uintItem 32 "id" (some json) = some (BitVec.ofNat 32 j)

/-- **The slots are filled one to one.** In an array that is accepted the
ids are distinct and in range, and each element's record is copied from
the slot of its id; other ids are refused before any slot is written. -/
structure FillsSlots : Prop where
  accepted : ∀ written, jsonToConditions old conditions = some written →
    (written.map Prod.fst).Nodup ∧ (∀ id ∈ written.map Prod.fst, id.toNat < written.length) ∧
      ∃ slots, copySlots written = some slots ∧
        ∀ k json id c, (children conditions)[k]? = some json →
          readCondition (old k) json = some (id, c) → slots[id.toNat]? = some c
  refused : ¬IdsOneToOne conditions →
    jsonToConditions old conditions = none ∧ slotsWritten old conditions = []

/-- The first element has no id, so that no slot is written. -/
def FirstUnnamed : Prop :=
  ∃ json, (children conditions).head? = some json ∧ uintItem 32 "id" (some json) = none

/-- Some element is no condition. -/
def SomeUnread : Prop :=
  ∃ k json, (children conditions)[k]? = some json ∧ readCondition (old k) json = none

section Slots

variable {old conditions} {written : List (BitVec 32 × XfsmCondition)}

/-- An element whose id is no number is no condition. -/
theorem readCondition_of_id {before : XfsmCondition} {json : Json}
    (h : uintItem 32 "id" (some json) = none) : readCondition before json = none := by
  unfold readCondition
  rw [h]
  rfl

/-- **When an array is refused.** -/
theorem jsonToConditions_eq_none_iff :
    jsonToConditions old conditions = none ↔
      ¬(children conditions).length < 255 ∨ SomeUnread old conditions := by
  unfold jsonToConditions
  by_cases hlt : (children conditions).length < 255
  · rw [if_pos hlt]
    constructor
    · intro hnone
      by_contra hread
      rw [not_or] at hread
      have hsome : (forEach (fun i => readCondition (old i)) 0
          (children conditions)).isSome = true :=
        forEach_isSome fun k json hk => by
          rw [Nat.zero_add]
          exact Option.ne_none_iff_isSome.mp fun hunread => hread.2 ⟨k, json, hk, hunread⟩
      rw [hnone] at hsome
      cases hsome
    · rintro (hge | ⟨k, json, hk, hunread⟩)
      · exact absurd hlt hge
      · by_contra hsome
        obtain ⟨written, hwritten⟩ := Option.ne_none_iff_exists'.mp hsome
        obtain ⟨b, -, hb⟩ := getElem?_of_forEach hwritten hk
        rw [Nat.zero_add, hunread] at hb
        cases hb
  · rw [if_neg hlt]
    exact iff_of_true rfl (.inl hlt)

/-- **When no slot is written.** -/
theorem slotsWritten_eq_nil_iff :
    slotsWritten old conditions = [] ↔
      ¬(children conditions).length < 255 ∨ children conditions = [] ∨
        FirstUnnamed conditions := by
  unfold slotsWritten FirstUnnamed
  by_cases hlt : (children conditions).length < 255
  · rw [if_pos hlt]
    cases hchildren : children conditions with
    | nil => exact iff_of_true rfl (.inr (.inl rfl))
    | cons json js =>
      unfold slotsFrom
      cases hid : uintItem 32 "id" (some json) with
      | none => exact iff_of_true rfl (.inr (.inr ⟨json, rfl, hid⟩))
      | some id =>
        refine iff_of_false (List.cons_ne_nil _ _) ?_
        rintro (hge | hnil | ⟨json', hjson', hid'⟩)
        · rw [hchildren] at hlt
          exact hge hlt
        · cases hnil
        · cases hjson'
          rw [hid] at hid'
          cases hid'
  · rw [if_neg hlt]
    exact iff_of_true rfl (.inl hlt)

/-- An array whose first element has no id is refused. -/
theorem someUnread_of_firstUnnamed (h : FirstUnnamed conditions) : SomeUnread old conditions := by
  obtain ⟨json, hhead, hid⟩ := h
  exact ⟨0, json, by rwa [← List.head?_eq_getElem?], readCondition_of_id hid⟩

/-- **Ids that are one to one** have a record in each slot, and each slot
holds what was made of the element with its id. -/
theorem fills_of_idsOneToOne (h : jsonToConditions old conditions = some written)
    (hids : IdsOneToOne conditions) (hroom : written.length ≤ maxConditions) :
    (written.map Prod.fst).Nodup ∧ (∀ id ∈ written.map Prod.fst, id.toNat < written.length) ∧
      ∃ slots, copySlots written = some slots ∧
        ∀ k json id c, (children conditions)[k]? = some json →
          readCondition (old k) json = some (id, c) → slots[id.toNat]? = some c := by
  obtain ⟨hlt, hlen, -, helements⟩ := jsonToConditions_eq_some h
  have hcover : ∀ j < written.length, ∃ c, (BitVec.ofNat 32 j, c) ∈ written := by
    intro j hj
    obtain ⟨json, hjson, hid⟩ := hids j (hlen ▸ hj)
    obtain ⟨k, hk⟩ := List.getElem?_of_mem hjson
    obtain ⟨id, c, hw, hid', -⟩ := helements k json hk
    rw [hid] at hid'
    cases hid'
    exact ⟨c, List.mem_of_getElem? hw⟩
  obtain ⟨hnodup, hplaces⟩ := ids_nodup hlt hcover
  have hslot : ∀ id c, (id, c) ∈ written →
      id.toNat < written.length ∧ conditionAt written id.toNat = some c := by
    intro id c hmem
    obtain ⟨j, hj, rfl⟩ := hplaces id c hmem
    have hnat : (BitVec.ofNat 32 j).toNat = j := by
      rw [BitVec.toNat_ofNat]
      exact Nat.mod_eq_of_lt (by omega)
    rw [hnat]
    obtain ⟨c', hc'⟩ := exists_conditionAt hmem
    have heq := List.inj_on_of_nodup_map hnodup (mem_of_conditionAt hc') hmem rfl
    cases heq
    exact ⟨hj, hc'⟩
  have hcopy : ∃ slots, (List.range written.length).mapM (conditionAt written) = some slots := by
    refine ⟨(List.range written.length).map fun j => (conditionAt written j).getD (old 0),
      mapM_eq_some_iff.mpr ?_⟩
    rw [List.map_map]
    refine List.map_congr_left fun j hj => ?_
    obtain ⟨c, hc⟩ := hcover j (List.mem_range.mp hj)
    obtain ⟨c', hc'⟩ := exists_conditionAt hc
    rw [Function.comp_apply, hc']
    rfl
  obtain ⟨slots, hslots⟩ := hcopy
  refine ⟨hnodup, fun id hid => ?_, slots, (if_pos hroom).trans hslots, ?_⟩
  · obtain ⟨⟨id', c⟩, hmem, rfl⟩ := List.mem_map.mp hid
    exact (hslot id' c hmem).1
  · intro k json id c hk hread
    have hmem : (id, c) ∈ written := by
      have hwritten := h
      unfold jsonToConditions at hwritten
      rw [if_pos (hlen ▸ hlt)] at hwritten
      obtain ⟨b, hb, hmade⟩ := getElem?_of_forEach hwritten hk
      rw [Nat.zero_add, hread] at hmade
      cases hmade
      exact List.mem_of_getElem? hb
    obtain ⟨hlt', hat⟩ := hslot id c hmem
    have hget := congrArg (·[id.toNat]?) (mapM_eq_some_iff.mp hslots)
    simp only [List.getElem?_map, List.getElem?_range hlt', Option.map_some, hat] at hget
    exact (Option.map_eq_some_iff.mp hget.symm).elim fun c' hc' =>
      hc'.1.trans (congrArg some (Option.some.inj hc'.2))

/-- **When slots are filled one to one**: no slot is written at all, or the
ids are one to one and there are no more conditions than a table has, or
some element is no condition. -/
theorem fillsSlots_iff (old : ℕ → XfsmCondition) (conditions : Option Json) :
    FillsSlots old conditions ↔
      ¬(children conditions).length < 255 ∨ FirstUnnamed conditions ∨
        (IdsOneToOne conditions ∧
          ((children conditions).length ≤ maxConditions ∨ SomeUnread old conditions)) := by
  constructor
  · intro hfills
    by_cases hids : IdsOneToOne conditions
    · cases haccepted : jsonToConditions old conditions with
      | none =>
        rcases jsonToConditions_eq_none_iff.mp haccepted with hge | hunread
        · exact .inl hge
        · exact .inr (.inr ⟨hids, .inr hunread⟩)
      | some written =>
        obtain ⟨-, -, slots, hcopy, -⟩ := hfills.accepted written haccepted
        refine .inr (.inr ⟨hids, .inl ?_⟩)
        rw [(jsonToConditions_eq_some haccepted).2.1]
        by_contra hroom
        rw [copySlots, if_neg hroom] at hcopy
        cases hcopy
    · rcases slotsWritten_eq_nil_iff.mp (hfills.refused hids).2 with hge | hnil | hfirst
      · exact .inl hge
      · refine absurd (fun j hj => ?_) hids
        rw [hnil] at hj
        exact absurd hj (Nat.not_lt_zero j)
      · exact .inr (.inl hfirst)
  · rintro (hge | hfirst | ⟨hids, hroom⟩)
    · have hnone : jsonToConditions old conditions = none :=
        jsonToConditions_eq_none_iff.mpr (.inl hge)
      refine ⟨fun written hwritten => ?_, fun _ => ⟨hnone, slotsWritten_eq_nil_iff.mpr (.inl hge)⟩⟩
      rw [hnone] at hwritten
      cases hwritten
    · have hnone : jsonToConditions old conditions = none :=
        jsonToConditions_eq_none_iff.mpr (.inr (someUnread_of_firstUnnamed hfirst))
      refine ⟨fun written hwritten => ?_,
        fun _ => ⟨hnone, slotsWritten_eq_nil_iff.mpr (.inr (.inr hfirst))⟩⟩
      rw [hnone] at hwritten
      cases hwritten
    · refine ⟨fun written hwritten => ?_, fun hno => absurd hids hno⟩
      refine fills_of_idsOneToOne hwritten hids ?_
      rw [← (jsonToConditions_eq_some hwritten).2.1]
      rcases hroom with hroom | hunread
      · exact hroom
      · have hnone : jsonToConditions old conditions = none :=
          jsonToConditions_eq_none_iff.mpr (.inr hunread)
        rw [hnone] at hwritten
        cases hwritten

end Slots

/-- A condition with an id. -/
def idJson (id : String) : Json :=
  .object [("id", .string id), ("opcode", .string "XTRA_EQUAL"),
    ("op0", .object [("type", .string "XTRA_INTEGER_CONST"), ("value", .string "5")]),
    ("op1", .object [("type", .string "XTRA_INTEGER_CONST"), ("value", .string "5")])]

/-- **A single condition with id 7** is accepted, and stored past the one
slot that there is. -/
theorem not_fillsSlots :
    (jsonToConditions (fun _ => ⟨.other, .other, 0, 0, .xfsmLess⟩)
      (some (.array [idJson "7"]))).isSome = true ∧
      ¬FillsSlots (fun _ => ⟨.other, .other, 0, 0, .xfsmLess⟩) (some (.array [idJson "7"])) := by
  have hsome : (jsonToConditions (fun _ => ⟨.other, .other, 0, 0, .xfsmLess⟩)
      (some (.array [idJson "7"]))).isSome = true := by decide +kernel
  refine ⟨hsome, fun h => ?_⟩
  obtain ⟨written, hwritten⟩ := Option.isSome_iff_exists.mp hsome
  have hbound := (h.accepted written hwritten).2.1
  have hids : (jsonToConditions (fun _ => ⟨.other, .other, 0, 0, .xfsmLess⟩)
      (some (.array [idJson "7"]))).map (List.map Prod.fst) = some [7] := by decide +kernel
  rw [hwritten, Option.map_some, Option.some.injEq] at hids
  have hlen : written.length = 1 := by
    have := congrArg List.length hids
    rwa [List.length_map] at this
  rw [hids, hlen] at hbound
  exact absurd (hbound 7 List.mem_cons_self) (by decide)

end Sw

end FlowBlaze
