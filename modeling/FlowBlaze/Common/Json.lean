import Mathlib.Data.List.Basic
/-!
# JSON trees — cJSON

Trees as cJSON keeps them: a node has a list of children, and in an
object each child has a name. Reading a tree never fails on its shape. A
loop over the elements of an array runs over the children of any node,
and over none of a node that is not there.
-/

namespace FlowBlaze

namespace Common

/-- **Making something of each element**, or of none. -/
theorem mapM_eq_some_iff {α β : Type} {f : α → Option β} {l : List α} {l' : List β} :
    l.mapM f = some l' ↔ l.map f = l'.map some := by
  induction l generalizing l' with
  | nil =>
    cases l' with
    | nil => simp
    | cons b l' => simp
  | cons a l ih =>
    rw [List.mapM_cons, List.map_cons]
    simp only [bind, pure, Option.bind_eq_some_iff]
    constructor
    · rintro ⟨b, hb, rest, hrest, heq⟩
      cases heq
      rw [hb, ih.mp hrest, List.map_cons]
    · intro h
      cases l' with
      | nil => cases h
      | cons b l' =>
        obtain ⟨hb, hrest⟩ := List.cons.inj h
        exact ⟨b, hb, l', ih.mpr hrest, rfl⟩

/-- `cJSON`. Numbers are not read. -/
inductive Json
  | null
  | bool (b : Bool)
  | number
  | string (valuestring : String)
  | array (elements : List Json)
  | object (members : List (String × Json))

namespace Json

/-- The children of a node: `cJSON_ArrayForEach`. -/
def children : Option Json → List Json
  | some (.array elements) => elements
  | some (.object members) => members.map Prod.snd
  | _ => []

/-- `cJSON_GetObjectItemCaseSensitive`: the first member of this name. The
elements of an array have no names, and comparing with one has no
result. -/
def item (name : String) : Option Json → Option (Option Json)
  | some (.object members) => some (members.lookup name)
  | some (.array (_ :: _)) => none
  | _ => some none

/-- The member of this name, if there is one. -/
def member (name : String) (j : Option Json) : Option Json := (item name j).join

/-- `cJSON_IsString`, and then `valuestring`. -/
def valuestring : Option Json → Option String
  | some (.string s) => some s
  | _ => none

/-- A member that has to be a string. -/
def stringItem (name : String) (j : Option Json) : Option String :=
  (item name j).bind valuestring

/-- A loop over elements that makes something of each, from a number on;
what it makes may depend on the number. -/
def forEach {β : Type} (f : ℕ → Json → Option β) : ℕ → List Json → Option (List β)
  | _, [] => some []
  | i, j :: js => (f i j).bind fun b => (forEach f (i + 1) js).map (b :: ·)

@[simp] theorem children_array (elements : List Json) :
    children (some (.array elements)) = elements := rfl

@[simp] theorem item_object (name : String) (members : List (String × Json)) :
    item name (some (.object members)) = some (members.lookup name) := rfl

theorem member_eq_of_item {name : String} {j m : Option Json} (h : item name j = some m) :
    member name j = m := by
  unfold member
  rw [h]
  rfl

@[simp] theorem valuestring_string (s : String) : valuestring (some (.string s)) = some s := rfl

section ForEach

variable {β : Type} {f : ℕ → Json → Option β} {i : ℕ} {js : List Json} {bs : List β}

/-- **What a loop makes**: something of each element. -/
theorem forEach_eq_some_iff :
    forEach f i js = some bs ↔
      js.length = bs.length ∧
        ∀ k j b, js[k]? = some j → bs[k]? = some b → f (i + k) j = some b := by
  induction js generalizing i bs with
  | nil =>
    cases bs with
    | nil => simp [forEach]
    | cons b bs => simp [forEach]
  | cons j js ih =>
    unfold forEach
    simp only [Option.bind_eq_some_iff, Option.map_eq_some_iff]
    constructor
    · rintro ⟨b, hb, bs, hbs, rfl⟩
      obtain ⟨hlen, hall⟩ := ih.mp hbs
      refine ⟨by simp [hlen], fun k j' b' hj hb' => ?_⟩
      cases k with
      | zero =>
        cases hj
        cases hb'
        exact hb
      | succ k =>
        have := hall k j' b' hj hb'
        rwa [Nat.add_right_comm] at this
    · rintro ⟨hlen, hall⟩
      cases bs with
      | nil => cases hlen
      | cons b bs =>
        refine ⟨b, hall 0 j b rfl rfl, bs, ih.mpr ⟨Nat.succ.inj hlen, fun k j' b' hj hb' => ?_⟩,
          rfl⟩
        have := hall (k + 1) j' b' hj hb'
        rwa [Nat.add_right_comm]

theorem length_forEach (h : forEach f i js = some bs) : js.length = bs.length :=
  (forEach_eq_some_iff.mp h).1

/-- What was made at a place was made of the element there. -/
theorem getElem?_forEach {k : ℕ} {b : β} (h : forEach f i js = some bs) (hb : bs[k]? = some b) :
    ∃ j, js[k]? = some j ∧ f (i + k) j = some b := by
  obtain ⟨hlen, hall⟩ := forEach_eq_some_iff.mp h
  have hlt := (List.getElem?_eq_some_iff.mp hb).1
  refine ⟨js[k], List.getElem?_eq_getElem (hlen ▸ hlt), ?_⟩
  exact hall k _ b (List.getElem?_eq_getElem (hlen ▸ hlt)) hb

/-- Of each element something was made. -/
theorem getElem?_of_forEach {k : ℕ} {j : Json} (h : forEach f i js = some bs)
    (hj : js[k]? = some j) : ∃ b, bs[k]? = some b ∧ f (i + k) j = some b := by
  obtain ⟨hlen, hall⟩ := forEach_eq_some_iff.mp h
  have hlt := (List.getElem?_eq_some_iff.mp hj).1
  refine ⟨bs[k], List.getElem?_eq_getElem (hlen ▸ hlt), ?_⟩
  exact hall k j _ hj (List.getElem?_eq_getElem (hlen ▸ hlt))

/-- What is read off the elements is read off what was made of them. -/
theorem filterMap_forEach {γ : Type} {read : Json → Option γ} {kept : β → γ}
    (hkept : ∀ i j b, f i j = some b → read j = some (kept b)) (h : forEach f i js = some bs) :
    js.filterMap read = bs.map kept := by
  induction js generalizing i bs with
  | nil =>
    cases h
    rfl
  | cons j js ih =>
    unfold forEach at h
    obtain ⟨b, hb, h⟩ := Option.bind_eq_some_iff.mp h
    obtain ⟨bs, hbs, rfl⟩ := Option.map_eq_some_iff.mp h
    rw [List.filterMap_cons_some (hkept i j b hb), List.map_cons, ih hbs]

/-- A loop goes through when each element does. -/
theorem forEach_isSome (h : ∀ k j, js[k]? = some j → (f (i + k) j).isSome = true) :
    (forEach f i js).isSome = true := by
  induction js generalizing i with
  | nil => rfl
  | cons j js ih =>
    obtain ⟨b, hb⟩ := Option.isSome_iff_exists.mp (h 0 j rfl)
    have hrest : (forEach f (i + 1) js).isSome = true := ih fun k j' hj => by
      have := h (k + 1) j' hj
      rwa [Nat.add_right_comm]
    obtain ⟨bs, hbs⟩ := Option.isSome_iff_exists.mp hrest
    unfold forEach
    rw [show f i j = some b from hb, hbs]
    rfl

end ForEach

end Json

end Common

end FlowBlaze
