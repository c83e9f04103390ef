import FlowBlaze.Hw.AddSteps
/-!
# What is inserted

A run is followed through its packets: what comes in are their beats, what
leaves are those of the packets with their fields in them.
-/

namespace FlowBlaze

namespace Hw

open Common

namespace AddField

/-- **Whenever a beat leaves in a run, the bytes to carry are still there.** -/
def AllKept : AddField → Underway → List ModifyInput → Prop
  | _, _, [] => True
  | M, u, x :: xs => (M.goesOut x = true → M.CarryKept u) ∧
      AllKept (M.clock x) (if M.comesIn x then u.following x else u) xs

/-- **Packets come in**, after the rest of one, in a run that ends when
nothing is left to leave. -/
structure Brings (M : AddField) (u : Underway) (xs rest : List ModifyInput)
    (ps : List Packet) : Prop where
  comes : M.comes xs = rest ++ ps.flatMap Packet.inputs
  kept : M.AllKept u xs
  ends : (M.run xs).state ≠ .extraSlot
  suits : ∀ p ∈ ps, p.Suits

/-- **Packets leave with their fields inserted**, after the beats of one. -/
def Sends (M : AddField) (xs : List ModifyInput) (left : List Axis → Prop)
    (ps : List Packet) : Prop :=
  ∃ ys os, M.leaves xs = ys ++ os.flatten ∧ left ys ∧ List.Forall₂ Inserted ps os

/-! ## A step of a run -/

section Steps

variable {M : AddField} {u : Underway} {x y : ModifyInput} {xs rest : List ModifyInput}
  {ps : List Packet} {left left' : List Axis → Prop}

theorem Brings.of_not_comesIn (h : M.Brings u (x :: xs) rest ps) (hin : M.comesIn x = false) :
    (M.clock x).Brings u xs rest ps := by
  have hcomes := h.comes
  have hkept := h.kept.2
  unfold AddField.comes at hcomes
  rw [hin, if_neg Bool.false_ne_true] at hcomes hkept
  exact ⟨hcomes, hkept, h.ends, h.suits⟩

theorem Brings.of_comesIn (h : M.Brings u (x :: xs) (y :: rest) ps) (hin : M.comesIn x = true) :
    x = y ∧ (M.clock x).Brings (u.following x) xs rest ps := by
  have hcomes := h.comes
  have hkept := h.kept.2
  unfold AddField.comes at hcomes
  rw [hin, if_pos rfl] at hcomes hkept
  obtain ⟨hx, hcomes⟩ := List.cons.inj hcomes
  exact ⟨hx, hcomes, hkept, h.ends, h.suits⟩

/-- Between two packets, a beat that comes in is the next one's first. -/
theorem Brings.first (h : M.Brings u (x :: xs) [] ps) (hin : M.comesIn x = true) :
    ∃ p ps', ps = p :: ps' ∧ M.Brings u (x :: xs) p.inputs ps' ∧ p.Suits := by
  cases ps with
  | nil =>
    have hcomes := h.comes
    unfold AddField.comes at hcomes
    rw [hin, if_pos rfl] at hcomes
    cases hcomes
  | cons p ps =>
    exact ⟨p, ps, rfl, ⟨h.comes, h.kept, h.ends, fun q hq => h.suits q (List.mem_cons_of_mem _ hq)⟩,
      h.suits p List.mem_cons_self⟩

theorem Sends.of_not_goesOut (h : (M.clock x).Sends xs left ps) (hout : M.goesOut x = false) :
    M.Sends (x :: xs) left ps := by
  obtain ⟨ys, os, hleaves, hleft, hos⟩ := h
  refine ⟨ys, os, ?_, hleft, hos⟩
  unfold leaves
  rw [hout, if_neg Bool.false_ne_true, hleaves]

theorem Sends.of_goesOut (h : (M.clock x).Sends xs left ps) (hout : M.goesOut x = true)
    (hleft : ∀ ys, left ys → left' (M.mAxis x :: ys)) : M.Sends (x :: xs) left' ps := by
  obtain ⟨ys, os, hleaves, hys, hos⟩ := h
  refine ⟨M.mAxis x :: ys, os, ?_, hleft ys hys, hos⟩
  unfold leaves
  rw [hout, if_pos rfl, hleaves]
  rfl

/-- The beats of a packet are its own. -/
theorem Sends.packet {p : Packet} (h : M.Sends xs (p.LeavesFrom 0) ps) :
    M.Sends xs (· = []) (p :: ps) := by
  obtain ⟨ys, os, hleaves, hys, hos⟩ := h
  exact ⟨[], ys :: os, hleaves, rfl, .cons (Packet.inserted_of_leavesFrom hys) hos⟩

end Steps

/-! ## Runs -/

section Runs

variable {M : AddField} {u : Underway} {p : Packet} {b : ℕ} {xs rest : List ModifyInput}
  {ps : List Packet}

/-- A run, from each of the three places in it that the machine can be. -/
structure Correct (xs : List ModifyInput) : Prop where
  idle : ∀ M u ps, AfterReset M → M.Brings u xs [] ps → M.Sends xs (· = []) ps
  passing : ∀ M u p b rest ps, Passing M u p b → p.Suits → p.Left b rest →
    M.Brings u xs rest ps → M.Sends xs (p.LeavesFrom b) ps
  slot : ∀ M u p ps, InSlot M u p → M.Brings u xs [] ps →
    M.Sends xs (p.LeavesFrom (beatsFor p.length)) ps

theorem correct_nil : Correct [] := by
  refine ⟨fun M u ps _ h => ?_, fun M u p b rest ps hpassing _ hleft h => ?_,
    fun M u p ps hslot h => absurd hslot.state h.ends⟩
  · cases ps with
    | nil => exact ⟨[], [], rfl, rfl, .nil⟩
    | cons p ps => exact absurd h.comes (by simp [AddField.comes, Packet.inputs])
  · have hnil : rest = [] := (List.append_eq_nil_iff.mp h.comes.symm).1
    rw [hnil] at hleft
    exact absurd hleft.beats (Nat.ne_of_lt hpassing.more)

/-- Nothing is left over of a packet that ends with its last beat. -/
theorem leavesFrom_nil (hroom : lastBytes p.length + p.count ≤ 31)
    (hend : b + 1 = beatsFor p.length) : p.LeavesFrom (b + 1) [] := by
  rw [lastBytes_eq] at hroom
  change b + 1 = beatsFor (p.length + p.count)
  rw [hend]
  unfold beatsFor
  omega

/-- A later beat of a packet. -/
theorem Correct.cons_passing {x : ModifyInput} (ih : Correct xs) (h : M.Passing u p b)
    (hsuits : p.Suits) (hleft : p.Left b rest) (hbrings : M.Brings u (x :: xs) rest ps) :
    M.Sends (x :: xs) (p.LeavesFrom b) ps := by
  have hne := h.ne_extraSlot
  cases hin : x.transfers with
  | false =>
    have hstep := hbrings.of_not_comesIn ((comesIn_of_ne hne).trans hin)
    exact (ih.passing _ u p b rest ps (h.stays hin) hsuits hleft hstep).of_not_goesOut
      ((goesOut_of_ne hne).trans hin)
  | true =>
    have hout := (goesOut_of_ne hne).trans hin
    cases rest with
    | nil => exact absurd hleft.beats (Nat.ne_of_lt h.more)
    | cons y rest =>
      obtain ⟨rfl, hstep⟩ := hbrings.of_comesIn ((comesIn_of_ne hne).trans hin)
      have hbeat := h.beatOut hsuits hleft (hbrings.kept.1 hout)
      by_cases hend : b + 1 = beatsFor p.length
      · have hnil : rest = [] := by
          have hlen := hleft.tail.beats.length_eq
          exact List.eq_nil_of_length_eq_zero (by omega)
        subst hnil
        rcases h.last hleft hin hend with ⟨hreset, hroom⟩ | hslot
        · refine (ih.idle _ _ ps hreset hstep).of_goesOut hout fun ys hys => ?_
          subst hys
          exact ⟨hbeat, leavesFrom_nil hroom hend⟩
        · exact (ih.slot _ _ p ps hslot hstep).of_goesOut hout fun ys hys =>
            ⟨hbeat, hend ▸ hys⟩
      · have hmore : b + 1 < beatsFor p.length := by
          have := h.more
          omega
        exact (ih.passing _ _ p (b + 1) rest ps (h.next hleft hin hmore) hsuits hleft.tail
          hstep).of_goesOut hout fun ys hys => ⟨hbeat, hys⟩

/-- Between two packets. -/
theorem Correct.cons_idle {x : ModifyInput} (ih : Correct xs) (h : M.AfterReset)
    (hbrings : M.Brings u (x :: xs) [] ps) : M.Sends (x :: xs) (· = []) ps := by
  have hne : M.state ≠ .extraSlot := by
    rw [h.1]
    exact fun h => by cases h
  cases hin : x.transfers with
  | false =>
    have hreset : (M.clock x).AfterReset := by
      rw [clock_stays hne hin]
      exact h
    have hstep := hbrings.of_not_comesIn ((comesIn_of_ne hne).trans hin)
    exact (ih.idle _ u ps hreset hstep).of_not_goesOut ((goesOut_of_ne hne).trans hin)
  | true =>
    have hout := (goesOut_of_ne hne).trans hin
    have hcomes := (comesIn_of_ne hne).trans hin
    obtain ⟨p, ps, rfl, hfirst, hsuits⟩ := hbrings.first hcomes
    obtain ⟨rfl, hstep⟩ := hfirst.of_comesIn hcomes
    have hpassing := ih.passing _ _ p 1 p.later ps (passing_first h hsuits hin) hsuits
      Packet.left_inputs.tail hstep
    exact (hpassing.of_goesOut hout fun ys hys => ⟨beatOut_first h hsuits, hys⟩).packet

/-- In the extra slot. -/
theorem Correct.cons_slot {x : ModifyInput} (ih : Correct xs) (h : M.InSlot u p)
    (hbrings : M.Brings u (x :: xs) [] ps) :
    M.Sends (x :: xs) (p.LeavesFrom (beatsFor p.length)) ps := by
  have hstep := hbrings.of_not_comesIn (comesIn_of_extraSlot h.state)
  cases hready : x.mAxisTready with
  | false =>
    exact (ih.slot _ u p ps (h.stays hready) hstep).of_not_goesOut
      ((goesOut_of_extraSlot h.state).trans hready)
  | true =>
    have hout := (goesOut_of_extraSlot h.state).trans hready
    refine (ih.idle _ u ps (h.ends hready) hstep).of_goesOut hout fun ys hys => ?_
    subst hys
    refine ⟨h.beatOut (hbrings.kept.1 hout), ?_⟩
    obtain ⟨hmod, hcount, -⟩ := h.full
    change beatsFor p.length + 1 = beatsFor (p.length + p.count)
    unfold beatsFor
    omega

theorem correct (xs : List ModifyInput) : Correct xs := by
  induction xs with
  | nil => exact correct_nil
  | cons x xs ih =>
    exact ⟨fun M u ps h hbrings => ih.cons_idle h hbrings,
      fun M u p b rest ps h hsuits hleft hbrings => ih.cons_passing h hsuits hleft hbrings,
      fun M u p ps h hbrings => ih.cons_slot h hbrings⟩

/-- **When exactly the requested bytes are inserted**: in every run after a
reset that brings packets that suit, and whenever a beat leaves still has
the bytes to carry. -/
theorem inserts_of_allKept (hreset : M.AfterReset) (hcomes : M.comes xs = ps.flatMap Packet.inputs)
    (hends : (M.run xs).state ≠ .extraSlot) (hsuits : ∀ p ∈ ps, p.Suits) (hkept : M.AllKept u xs) :
    ∃ os, M.leaves xs = os.flatten ∧ List.Forall₂ Inserted ps os := by
  obtain ⟨ys, os, hleaves, rfl, hos⟩ :=
    (correct xs).idle M u ps hreset ⟨hcomes, hkept, hends, hsuits⟩
  exact ⟨os, hleaves, hos⟩

end Runs

end AddField

/-! ## Two runs -/

/-- A beat with a length and keep bits, and the operation. -/
def addBeat (tdata : BitVec 256) (length : BitVec 128) (kept : ℕ) (tlast enable : Bool)
    (offset : BitVec 14) (size : BitVec 2) (field : BitVec 32) : ModifyInput :=
  ⟨⟨tdata, length, keepBits kept, true, tlast⟩, true, offset, size, field, enable⟩

/-- A cycle in which nothing comes in. -/
def noBeat : ModifyInput := ⟨⟨0, 0, 0, false, false⟩, true, 0, 0, 0, false⟩

/-- The registers after a reset. -/
def AddField.reset : AddField := ⟨.idle, 0, 0, 0, 0, 0, 0⟩

/-- Forty bytes, with two to insert at the tenth. -/
def shortPacket : Packet :=
  ⟨addBeat 7 40 32 false true 10 0b10 0xbbaa, [addBeat 8 0 8 true false 0 0 0], by decide,
    by decide, by decide, rfl, rfl, rfl, rfl, rfl, rfl, rfl⟩

/-- Two full beats, with four bytes to insert at the twelfth. -/
def fullPacket : Packet :=
  ⟨addBeat 9 64 32 false true 12 0b11 0xddccbbaa, [addBeat 1 0 32 true false 0 0 0], by decide,
    by decide, by decide, rfl, rfl, rfl, rfl, rfl, rfl, rfl⟩

/-- Both packets, with a stalled cycle before the first, and the second one's
extra slot. -/
theorem inserts_short_full :
    ∃ os, AddField.reset.leaves ([{ addBeat 7 40 32 false true 10 0b10 0xbbaa with
        mAxisTready := false }] ++ shortPacket.inputs ++ fullPacket.inputs ++ [noBeat]) =
        os.flatten ∧ List.Forall₂ Inserted [shortPacket, fullPacket] os := by
  refine AddField.inserts_of_allKept (u := ⟨0, 0, 0⟩) ⟨rfl, rfl⟩ rfl (by decide) ?_ ?_
  · intro p hp
    have hcases : p = shortPacket ∨ p = fullPacket := by simpa using hp
    rcases hcases with rfl | rfl
    · exact ⟨fun _ => by decide, fun _ => by decide, .inl (by decide)⟩
    · exact ⟨fun _ => by decide, fun _ => by decide, .inr (by decide)⟩
  · refine ⟨fun h => absurd h (by decide), fun _ => .inl rfl, fun _ => .inr (.inr rfl),
      fun _ => .inl rfl, fun _ => .inr (.inr rfl), fun _ => .inr (.inr rfl), trivial⟩

/-- A packet whose two beats the field fills. -/
def fillingPacket : Packet :=
  ⟨addBeat 7 62 32 false true 0 0b10 0xbbaa, [addBeat 8 0 30 true false 0 0 0], by decide,
    by decide, by decide, rfl, rfl, rfl, rfl, rfl, rfl, rfl⟩

/-- **A packet that the field fills** leaves in a beat too many. -/
theorem not_inserts :
    AddField.reset.comes (fillingPacket.inputs ++ [noBeat]) =
        [fillingPacket].flatMap Packet.inputs ∧
      (AddField.reset.run (fillingPacket.inputs ++ [noBeat])).state ≠ .extraSlot ∧
      ¬∃ os, AddField.reset.leaves (fillingPacket.inputs ++ [noBeat]) = os.flatten ∧
        List.Forall₂ Inserted [fillingPacket] os := by
  refine ⟨rfl, by decide, ?_⟩
  rintro ⟨os, hleaves, hos⟩
  cases hos with
  | cons hfirst hrest =>
    cases hrest
    have hthree : (AddField.reset.leaves (fillingPacket.inputs ++ [noBeat])).length = 3 := rfl
    have htwo := hfirst.beats
    rw [hleaves, List.flatten_cons, List.flatten_nil, List.append_nil, htwo] at hthree
    revert hthree
    decide

end Hw

end FlowBlaze
