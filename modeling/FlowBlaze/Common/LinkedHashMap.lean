import Mathlib.Data.List.Basic
/-!
# Linked hash maps

A hash map that keeps its keys in the order they were first put in. Keys
are compared by an `equals` of their own, which need not be equality: a
key put again keeps its old object and place, and only the value is
replaced. The hash never shows, provided equal keys have equal hashes.
-/

namespace FlowBlaze

namespace Common

/-- **An `equals` that obeys its contract.** -/
structure KeyEq (K : Type) where
  eqv : K → K → Bool
  refl : ∀ k, eqv k k = true
  symm : ∀ {k l}, eqv k l = true → eqv l k = true
  trans : ∀ {k l m}, eqv k l = true → eqv l m = true → eqv k m = true

/-- Equality as an `equals`. -/
def KeyEq.ofEq (K : Type) [DecidableEq K] : KeyEq K where
  eqv k l := decide (k = l)
  refl _ := decide_eq_true rfl
  symm h := decide_eq_true (of_decide_eq_true h).symm
  trans h h' := decide_eq_true ((of_decide_eq_true h).trans (of_decide_eq_true h'))

/-- **An order in which a hash map is walked.** -/
structure HashOrder (K : Type) where
  run : List K → List K
  perm : ∀ ks, (run ks).Perm ks

/-- The entries of the map, in order. -/
abbrev LinkedHashMap (K V : Type) := List (K × V)

namespace LinkedHashMap

variable {K V : Type} (E : KeyEq K)

/-- `containsKey`. -/
def containsKey (m : LinkedHashMap K V) (k : K) : Bool := m.any fun e => E.eqv k e.1

/-- `get`; `none` is `null`. -/
def get (m : LinkedHashMap K V) (k : K) : Option V :=
  (m.find? fun e => E.eqv k e.1).map Prod.snd

/-- `put`. -/
def put (m : LinkedHashMap K V) (k : K) (v : V) : LinkedHashMap K V :=
  if containsKey E m k then m.map fun e => if E.eqv k e.1 then (e.1, v) else e
  else m ++ [(k, v)]

/-- Change the value object of a key in place. -/
def modify (m : LinkedHashMap K V) (k : K) (f : V → V) : LinkedHashMap K V :=
  m.map fun e => if E.eqv k e.1 then (e.1, f e.2) else e

/-- `keySet`. -/
def keySet (m : LinkedHashMap K V) : List K := m.map Prod.fst

/-- No two keys are equal. -/
def Distinct (m : LinkedHashMap K V) : Prop := m.Pairwise fun d e => E.eqv d.1 e.1 = false

variable {E} {m : LinkedHashMap K V} {k l : K} {v : V}

theorem distinct_nil : Distinct E ([] : LinkedHashMap K V) := List.Pairwise.nil

theorem containsKey_iff : containsKey E m k = true ↔ ∃ e ∈ m, E.eqv k e.1 = true := by
  unfold containsKey
  rw [List.any_eq_true]

/-- A new key goes to the end. -/
theorem put_of_absent (h : containsKey E m k = false) : put E m k v = m ++ [(k, v)] := by
  unfold put
  rw [h, if_neg Bool.false_ne_true]

/-- Putting a new key keeps the keys distinct. -/
theorem Distinct.put (hm : Distinct E m) (h : containsKey E m k = false) :
    Distinct E (put E m k v) := by
  rw [put_of_absent h]
  refine List.pairwise_append.mpr ⟨hm, List.pairwise_singleton _ _, fun d hd e he => ?_⟩
  rw [List.mem_singleton] at he
  subst he
  cases hdk : E.eqv d.1 k with
  | false => rfl
  | true => exact absurd (containsKey_iff.mpr ⟨d, hd, E.symm hdk⟩) (Bool.eq_false_iff.mp h)

/-- A key that is there has a value, that of an equal key. -/
theorem get_of_containsKey (h : containsKey E m k = true) :
    ∃ e ∈ m, E.eqv k e.1 = true ∧ get E m k = some e.2 := by
  obtain ⟨e, he⟩ := Option.isSome_iff_exists.mp (List.find?_isSome.mpr (containsKey_iff.mp h))
  refine ⟨e, List.mem_of_find?_eq_some he, List.find?_some (p := fun e : K × V => E.eqv k e.1) he,
    ?_⟩
  unfold get
  rw [he]
  rfl

/-- Equal keys are the same key. -/
theorem Distinct.eq_of_eqv (hm : Distinct E m) {i j : ℕ} {d e : K × V} (hd : m[i]? = some d)
    (he : m[j]? = some e) (h : E.eqv d.1 e.1 = true) : i = j := by
  obtain ⟨hi, rfl⟩ := List.getElem?_eq_some_iff.mp hd
  obtain ⟨hj, rfl⟩ := List.getElem?_eq_some_iff.mp he
  unfold Distinct at hm
  rw [List.pairwise_iff_getElem] at hm
  rcases Nat.lt_trichotomy i j with hlt | rfl | hlt
  · exact absurd h (Bool.eq_false_iff.mp (hm i j hi hj hlt))
  · rfl
  · exact absurd (E.symm h) (Bool.eq_false_iff.mp (hm j i hj hi hlt))

/-! ## Looking up what was put -/

theorem get_eq_none_iff : get E m k = none ↔ containsKey E m k = false := by
  unfold get containsKey
  rw [Option.map_eq_none_iff, List.find?_eq_none, List.any_eq_false]

/-- A value changed in place leaves the keys. -/
theorem containsKey_modify {f : V → V} :
    containsKey E (modify E m k f) l = containsKey E m l := by
  unfold containsKey modify
  rw [List.any_map]
  refine congrArg (List.any m) (funext fun e => ?_)
  change E.eqv l (if E.eqv k e.1 then (e.1, f e.2) else e).1 = E.eqv l e.1
  split <;> rfl

theorem containsKey_put_self : containsKey E (put E m k v) k = true := by
  cases h : containsKey E m k with
  | true =>
    have hput : put E m k v = modify E m k fun _ => v := if_pos h
    rw [hput, containsKey_modify, h]
  | false =>
    rw [put_of_absent h]
    exact containsKey_iff.mpr ⟨(k, v), by simp, E.refl k⟩

section Get

variable [DecidableEq K] {f : V → V}

/-- A value changed in place. -/
theorem get_modify : (modify (.ofEq K) m k f).get (.ofEq K) l =
    if l = k then (m.get (.ofEq K) l).map f else m.get (.ofEq K) l := by
  unfold modify get
  induction m with
  | nil => simp
  | cons e m ih =>
    rw [List.map_cons, List.find?_cons, List.find?_cons]
    by_cases hk : k = e.1
    · by_cases hl : l = e.1
      · simp [KeyEq.ofEq, hk, hl]
      · simp only [KeyEq.ofEq, hk, decide_true, if_true, hl, decide_false, if_false]
        simpa [KeyEq.ofEq, hk, hl] using ih
    · by_cases hl : l = e.1
      · have hlk : l ≠ k := fun h => hk (h.symm.trans hl)
        simp [KeyEq.ofEq, hk, hl, Ne.symm hk]
      · simp only [KeyEq.ofEq, hk, decide_false, Bool.false_eq_true, if_false, hl]
        exact ih

/-- **What was put is found**, and the rest as before. -/
theorem get_put : (put (.ofEq K) m k v).get (.ofEq K) l =
    if l = k then some v else m.get (.ofEq K) l := by
  cases h : containsKey (.ofEq K) m k with
  | true =>
    have hput : put (.ofEq K) m k v = modify (.ofEq K) m k fun _ => v := if_pos h
    rw [hput, get_modify]
    by_cases hl : l = k
    · obtain ⟨e, -, -, he⟩ := get_of_containsKey h
      rw [if_pos hl, if_pos hl, hl, he]
      rfl
    · rw [if_neg hl, if_neg hl]
  | false =>
    rw [put_of_absent h]
    unfold get
    rw [List.find?_append]
    by_cases hl : l = k
    · have hnone := Option.map_eq_none_iff.mp (get_eq_none_iff.mpr h)
      rw [if_pos hl, hl, hnone]
      simp [KeyEq.ofEq]
    · simp [KeyEq.ofEq, hl]

end Get

/-! ## Maps given by a function -/

section OfFn

variable [DecidableEq K] {ks : List K} {f : K → V} {g : V → V}

/-- The map of these keys with the values of a function. -/
def ofFn (ks : List K) (f : K → V) : LinkedHashMap K V := ks.map fun k => (k, f k)

omit [DecidableEq K] in
theorem keySet_ofFn : (ofFn ks f).keySet = ks := by
  unfold keySet ofFn
  rw [List.map_map]
  exact List.map_id ks

theorem containsKey_ofFn : (ofFn ks f).containsKey (.ofEq K) k = decide (k ∈ ks) := by
  unfold containsKey ofFn KeyEq.ofEq
  rw [Bool.eq_iff_iff, List.any_map]
  simp

theorem get_ofFn (h : k ∈ ks) : (ofFn ks f).get (.ofEq K) k = some (f k) := by
  unfold get ofFn
  induction ks with
  | nil => cases h
  | cons l ks ih =>
    rw [List.map_cons, List.find?_cons]
    by_cases hkl : k = l
    · subst hkl
      simp [KeyEq.ofEq]
    · have hne : (KeyEq.ofEq K).eqv k l = false := decide_eq_false hkl
      simp only [hne]
      exact ih ((List.mem_cons.mp h).resolve_left hkl)

theorem put_ofFn (h : k ∉ ks) :
    (ofFn ks f).put (.ofEq K) k v = ofFn (ks ++ [k]) (fun l => if l = k then v else f l) := by
  rw [put_of_absent (by rw [containsKey_ofFn]; exact decide_eq_false h)]
  unfold ofFn
  simp only [List.map_append, List.map_singleton, if_true]
  refine congrArg (· ++ [(k, v)]) (List.map_congr_left fun l hl => ?_)
  rw [if_neg fun hlk : l = k => h (hlk ▸ hl)]

theorem modify_ofFn :
    (ofFn ks f).modify (.ofEq K) k g = ofFn ks (fun l => if l = k then g (f l) else f l) := by
  unfold modify ofFn
  rw [List.map_map]
  refine List.map_congr_left fun l _ => ?_
  by_cases hlk : l = k
  · simp [hlk, KeyEq.ofEq]
  · have hne : (KeyEq.ofEq K).eqv k l = false := decide_eq_false fun h => hlk h.symm
    simp [hlk, hne]

end OfFn

end LinkedHashMap

end Common

end FlowBlaze
