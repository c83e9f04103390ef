import FlowBlaze.Hw.Controller
import FlowBlaze.Hw.CuckooRefines
/-!
# One packet after the other

What the state machine knows about the beats taken so far, where the
pulse of a packet stands, and from the two when a packet searches the flow
table before the packet in front of it has been written there. `WAIT5`
is entered when the last beat comes within three cycles of the second,
and then keeps the next packet out long enough. A packet that ends four
cycles after its second beat or later leaves no wait behind, though its
pulse needs nine cycles to the place where the table is written.
-/

namespace FlowBlaze

namespace Hw

open Common

namespace Controller

variable {ports : ℕ → AxisIn} {a b t u second first' second' : ℕ}

/-! ## Beats -/

/-- A beat is taken in a cycle with a word available. -/
theorem Beat.step (h : Beat ports t) : (ports t).step = true := by
  obtain ⟨hv, hr⟩ := h
  simp only [s0AxisTready, Bool.and_eq_true] at hr
  simp [AxisIn.step, hv, hr.2]

/-- No beat is taken in `WAIT5`. -/
theorem Beat.ne_wait5 (h : Beat ports t) : (run ports t).currState ≠ .wait5 := by
  have hr := h.2
  simp only [s0AxisTready, Bool.and_eq_true, bne_iff_ne] at hr
  exact hr.1

/-- In the other states the word available is taken. -/
theorem beat_of_step (h : (ports t).step = true) (hw : (run ports t).currState ≠ .wait5) :
    Beat ports t := by
  simp only [AxisIn.step, Bool.and_eq_true] at h
  refine ⟨h.1, ?_⟩
  simp [s0AxisTready, hw, h.2]

/-- Only one beat is the last before a cycle. -/
theorem LastBefore.unique (h : LastBefore ports a t) (h' : LastBefore ports b t) : a = b := by
  obtain ⟨ha, hba, hna⟩ := h
  obtain ⟨hb, hbb, hnb⟩ := h'
  rcases Nat.lt_trichotomy a b with hab | hab | hab
  · exact absurd hbb (hna b hab hb)
  · exact hab
  · exact absurd hba (hnb a hab ha)

/-- A beat is the last before the next cycle. -/
theorem Beat.lastBefore (h : Beat ports t) : LastBefore ports t (t + 1) :=
  ⟨Nat.lt_succ_self t, h, fun i hi hit => absurd hit (by omega)⟩

/-- A cycle without a beat leaves the last one where it was. -/
theorem lastBefore_succ_of_not_beat (h : ¬ Beat ports t) :
    LastBefore ports b (t + 1) ↔ LastBefore ports b t := by
  constructor
  · rintro ⟨hb, hbeat, hn⟩
    have hbt : b ≠ t := fun he => h (he ▸ hbeat)
    exact ⟨by omega, hbeat, fun i hi hit => hn i hi (by omega)⟩
  · rintro ⟨hb, hbeat, hn⟩
    refine ⟨by omega, hbeat, fun i hi hit => ?_⟩
    rcases eq_or_ne i t with rfl | hne
    · exact h
    · exact hn i hi (by omega)

/-- Between two beats the first of them is the last taken. -/
theorem LastBefore.of_le (h : LastBefore ports b t) (hb : b < u) (hu : u ≤ t) :
    LastBefore ports b u :=
  ⟨hb, h.2.1, fun i hi hiu => h.2.2 i hi (by omega)⟩

/-- After a beat there is always a last one. -/
theorem exists_lastBefore (hb : Beat ports b) (h : b < t) : ∃ a, b ≤ a ∧ LastBefore ports a t := by
  induction t, h using Nat.le_induction with
  | base => exact ⟨b, Nat.le_refl b, hb.lastBefore⟩
  | succ t h ih =>
    by_cases ht : Beat ports t
    · exact ⟨t, by omega, ht.lastBefore⟩
    · obtain ⟨a, ha, hl⟩ := ih
      exact ⟨a, ha, (lastBefore_succ_of_not_beat ht).2 hl⟩

/-! ## What the state says about the beats -/

/-- **What the state machine knows.** In `IDLE` and `WAIT5` the last beat
ended its packet, in `PKT1` it was the first of one, in `PKT2` neither. -/
def Knows (ports : ℕ → AxisIn) (t : ℕ) : FsmState → Prop
  | .idle | .wait5 => ∀ b, LastBefore ports b t → (ports b).tlast = true
  | .pkt1 => ∃ b, LastBefore ports b t ∧ FirstBeat ports b
  | .pkt2 => ∃ b, LastBefore ports b t ∧ (ports b).tlast = false ∧ ¬ FirstBeat ports b

/-- Without a beat what is known stays true. -/
theorem Knows.of_not_beat {s : FsmState} (h : Knows ports t s) (ht : ¬ Beat ports t) :
    Knows ports (t + 1) s := by
  cases s with
  | idle => exact fun b hb => h b ((lastBefore_succ_of_not_beat ht).1 hb)
  | wait5 => exact fun b hb => h b ((lastBefore_succ_of_not_beat ht).1 hb)
  | pkt1 =>
    obtain ⟨b, hb, hf⟩ := h
    exact ⟨b, (lastBefore_succ_of_not_beat ht).2 hb, hf⟩
  | pkt2 =>
    obtain ⟨b, hb, hl, hf⟩ := h
    exact ⟨b, (lastBefore_succ_of_not_beat ht).2 hb, hl, hf⟩

/-- The beat after one that does not end its packet is not a first one. -/
theorem Follows.not_first (h : Follows ports b t) (hl : (ports b).tlast = false) :
    ¬ FirstBeat ports t := by
  intro hf
  rw [hf.2 b h.1] at hl
  cases hl

/-- After a last beat the last beat is known to be one. -/
theorem knows_of_last (hb : Beat ports t) (hl : (ports t).tlast = true) (b : ℕ)
    (h : LastBefore ports b (t + 1)) : (ports b).tlast = true := by
  rw [h.unique hb.lastBefore]
  exact hl

/-- **The state machine follows the packets.** -/
theorem knows (h : LongPackets ports) (t : ℕ) : Knows ports t (run ports t).currState := by
  induction t with
  | zero => exact fun b hb => absurd hb.1 (Nat.not_lt_zero b)
  | succ t ih =>
    have hnext : (run ports (t + 1)).currState = (run ports t).nextState (ports t) := rfl
    rw [hnext]
    cases hs : (run ports t).currState with
    | idle =>
      rw [hs] at ih
      cases hp : (ports t).step with
      | false =>
        rw [nextState, hs]
        simp only [hp, Bool.false_eq_true, if_false]
        exact Knows.of_not_beat ih fun hb => by rw [hb.step] at hp; cases hp
      | true =>
        have hb : Beat ports t := beat_of_step hp (by rw [hs]; decide)
        rw [nextState, hs]
        simp only [hp, if_true]
        exact ⟨t, hb.lastBefore, hb, ih⟩
    | pkt1 =>
      rw [hs] at ih
      cases hp : (ports t).step with
      | false =>
        rw [nextState, hs]
        simp only [hp, Bool.false_eq_true, if_false]
        exact Knows.of_not_beat ih fun hb => by rw [hb.step] at hp; cases hp
      | true =>
        have hb : Beat ports t := beat_of_step hp (by rw [hs]; decide)
        obtain ⟨b, hlb, hf⟩ := ih
        have hn : ¬ FirstBeat ports t := Follows.not_first ⟨hlb, hb⟩ (h b hf)
        rw [nextState, hs]
        cases hl : (ports t).tlast with
        | false =>
          simp only [hp, if_true, Bool.false_eq_true, if_false]
          exact ⟨t, hb.lastBefore, hl, hn⟩
        | true =>
          simp only [hp, if_true]
          exact knows_of_last hb hl
    | pkt2 =>
      rw [hs] at ih
      cases hp : (ports t).step with
      | false =>
        rw [nextState, hs]
        simp only [hp, Bool.false_and, Bool.false_eq_true, if_false]
        exact Knows.of_not_beat ih fun hb => by rw [hb.step] at hp; cases hp
      | true =>
        have hb : Beat ports t := beat_of_step hp (by rw [hs]; decide)
        obtain ⟨b, hlb, hlast, hf⟩ := ih
        rw [nextState, hs]
        cases hl : (ports t).tlast with
        | false =>
          simp only [hp, Bool.and_false, Bool.false_eq_true, if_false]
          exact ⟨t, hb.lastBefore, hl, Follows.not_first ⟨hlb, hb⟩ hlast⟩
        | true =>
          -- the last beat of a packet, after which the machine is idle or waits
          simp only [hp, Bool.and_self, if_true]
          split
          · exact knows_of_last hb hl
          · exact knows_of_last hb hl
    | wait5 =>
      rw [hs] at ih
      have hb : ¬ Beat ports t := fun hb => hb.ne_wait5 hs
      rw [nextState, hs]
      simp only
      split
      · exact Knows.of_not_beat (s := .idle) ih hb
      · exact Knows.of_not_beat ih hb

/-- After a first beat the second one is waited for. -/
theorem pkt1_of_first (h : LongPackets ports) (hl : LastBefore ports b t)
    (hf : FirstBeat ports b) : (run ports t).currState = .pkt1 := by
  have hk := knows h t
  have hlast := h b hf
  cases hs : (run ports t).currState with
  | pkt1 => rfl
  | idle =>
    rw [hs] at hk
    rw [hk b hl] at hlast
    cases hlast
  | wait5 =>
    rw [hs] at hk
    rw [hk b hl] at hlast
    cases hlast
  | pkt2 =>
    rw [hs] at hk
    obtain ⟨a, ha, -, hn⟩ := hk
    rw [ha.unique hl] at hn
    exact absurd hf hn

/-- After any other beat it is not. -/
theorem ne_pkt1_of_not_first (h : LongPackets ports) (hl : LastBefore ports b t)
    (hf : ¬ FirstBeat ports b) : (run ports t).currState ≠ .pkt1 := by
  intro hs
  have hk := knows h t
  rw [hs] at hk
  obtain ⟨a, ha, hfa⟩ := hk
  rw [ha.unique hl] at hfa
  exact hf hfa

/-! ## When the shift registers move -/

/-- Outside `PKT1` they do. -/
theorem shiftsAt_of_ne_pkt1 (h : (run ports t).currState ≠ .pkt1) : shiftsAt ports t = true := by
  simp [shiftsAt, shifts, h]

/-- And with every beat. -/
theorem Beat.shiftsAt (h : Beat ports t) : shiftsAt ports t = true := by
  simp [Controller.shiftsAt, shifts, h.step]

/-- **The second beat of a packet raises a pulse**, which enters `startd`
in the next cycle. -/
theorem Follows.raises (h : LongPackets ports) (hf : FirstBeat ports b)
    (hs : Follows ports b t) :
    (run ports (t + 1)).start = true ∧ Controller.shiftsAt ports (t + 1) = true := by
  have hstate := pkt1_of_first h hs.1 hf
  constructor
  · change ((run ports t).currState == .pkt1 && (ports t).step) = true
    rw [hstate, hs.2.step]
    rfl
  · exact shiftsAt_of_ne_pkt1
      (ne_pkt1_of_not_first h hs.2.lastBefore (hs.not_first (h b hf)))

/-- The places of `startd` are a chain of registers. -/
theorem startd_eq_chain (t : ℕ) (k : Fin 12) : (run ports t).startd k =
    chain (shiftsAt ports) (fun i => (run ports i).start) false t k.val := by
  induction t generalizing k with
  | zero => rfl
  | succ t ih =>
    change (if (run ports t).shifts (ports t) then _ else _) = _
    rw [show (run ports t).shifts (ports t) = shiftsAt ports t from rfl]
    rcases k with ⟨k, hk⟩
    cases k with
    | zero => rw [chain, if_pos rfl, ← ih ⟨0, hk⟩]
    | succ k =>
      have hpred : (⟨k + 1, hk⟩ : Fin 12) - 1 = ⟨k, by omega⟩ := by
        apply Fin.ext
        simp [Fin.sub_def]
        omega
      rw [chain, ih, if_neg (Nat.succ_ne_zero k), hpred, ih]

/-- Where the pulse of a packet stands is a matter of counting. -/
theorem pulseAt_iff (h : LongPackets ports) (hf : FirstBeat ports b)
    (hs : Follows ports b second) {k : Fin 12} :
    PulseAt ports second k t ↔
      second < t ∧ moves (shiftsAt ports) (second + 1) t = k.val + 1 := by
  constructor
  · exact fun hp => hp.2
  · rintro ⟨hlt, hm⟩
    obtain ⟨hstart, hshift⟩ := Follows.raises h hf hs
    refine ⟨?_, hlt, hm⟩
    have hlt' : second + 1 < t := by
      rcases Nat.eq_or_lt_of_le (Nat.succ_le_of_lt hlt) with he | hlt'
      · rw [← he] at hm
        simp at hm
      · exact hlt'
    rw [startd_eq_chain, chain_eq_input hshift hlt' hm]
    exact hstart

/-- **Every pulse is that of a packet**: a place of `startd` is high when
the pulse of some second beat stands there. -/
theorem startd_iff {k : Fin 12} (h : LongPackets ports) :
    (run ports t).startd k = true ↔
      ∃ b s, FirstBeat ports b ∧ Follows ports b s ∧ PulseAt ports s k t := by
  constructor
  · intro hk
    have hchain := hk
    rw [startd_eq_chain] at hchain
    rcases @chain_cases _ (shiftsAt ports) (fun i => (run ports i).start)
      false t k.val with ⟨-, hi⟩ | ⟨s, hst, -, hm, hi⟩
    · rw [hi] at hchain
      cases hchain
    · rw [hi] at hchain
      cases s with
      | zero => cases hchain
      | succ s =>
        change ((run ports s).currState == .pkt1 && (ports s).step) = true at hchain
        simp only [Bool.and_eq_true, beq_iff_eq] at hchain
        have hbeat : Beat ports s := beat_of_step hchain.2 (by rw [hchain.1]; decide)
        have hknows := knows h s
        rw [hchain.1] at hknows
        obtain ⟨b, hb, hf⟩ := hknows
        exact ⟨b, s, hf, ⟨hb, hbeat⟩, hk, by omega, hm⟩
  · rintro ⟨b, s, -, -, hp⟩
    exact hp.1

/-- **A packet searches two cycles after its second beat.** -/
theorem Follows.searches_iff (h : LongPackets ports) (hf : FirstBeat ports b)
    (hs : Follows ports b second) : Searches ports second t ↔ t = second + 2 := by
  obtain ⟨-, hshift⟩ := Follows.raises h hf hs
  have hone : moves (shiftsAt ports) (second + 1) (second + 2) = 1 := by
    rw [moves_succ_of_enabled (Nat.le_refl _) hshift, moves_self]
  -- the state two cycles after the second beat is not `PKT1` either
  have hshift' : shiftsAt ports (second + 2) = true := by
    have hn : ¬ FirstBeat ports second := hs.not_first (h b hf)
    by_cases hb : Beat ports (second + 1)
    · have hl : (ports second).tlast = false := by
        cases hl : (ports second).tlast with
        | false => rfl
        | true =>
          refine absurd ?_ hb.ne_wait5
          change (run ports second).nextState (ports second) = .wait5
          have hstate := pkt1_of_first h hs.1 hf
          simp [nextState, hstate, hs.2.step, hl]
      have hn' : ¬ FirstBeat ports (second + 1) :=
        Follows.not_first ⟨hs.2.lastBefore, hb⟩ hl
      exact shiftsAt_of_ne_pkt1 (ne_pkt1_of_not_first h hb.lastBefore hn')
    · exact shiftsAt_of_ne_pkt1 (ne_pkt1_of_not_first h
        ((lastBefore_succ_of_not_beat hb).2 hs.2.lastBefore) hn)
  rw [Searches, pulseAt_iff h hf hs]
  constructor
  · rintro ⟨hlt, hm⟩
    rcases Nat.lt_trichotomy t (second + 2) with hlt' | he | hlt'
    · obtain rfl : t = second + 1 := by omega
      simp at hm
    · exact he
    · have htwo : moves (shiftsAt ports) (second + 1) (second + 3) = 2 := by
        rw [moves_succ_of_enabled (by omega) hshift', hone]
      have hmono := @moves_mono (shiftsAt ports) (second + 1) _ _
        (by omega : second + 3 ≤ t)
      have hz : ((0 : Fin 12) : ℕ) = 0 := rfl
      omega
  · rintro rfl
    exact ⟨by omega, hone⟩

/-! ## Two packets in a row -/

namespace Successive

variable (h : LongPackets ports) (hs : Successive ports second first' second')

include h hs

/-- The beats of the packet after its first are no first beats, and one of
them is the last before every cycle up to the next packet. -/
theorem lastBefore (ht : second < t) (htf : t ≤ first') :
    ∃ b, LastBefore ports b t ∧ ¬ FirstBeat ports b := by
  obtain ⟨first, last, hf, hfs, hsl, hbl, hl, hmid, hlf⟩ := hs.ex
  obtain ⟨b, hsb, hb⟩ := exists_lastBefore hfs.2 ht
  refine ⟨b, hb, ?_⟩
  have hble : b ≤ last := by
    by_contra hlt
    exact hlf.1.2.2 b (by omega) (by have := hb.1; omega) hb.2.1
  rcases Nat.eq_or_lt_of_le hsb with he | hlt
  · rw [← he]
    exact hfs.not_first (h first hf)
  · obtain ⟨a, hsa, ha⟩ := exists_lastBefore hfs.2 hlt
    have hab := ha.1
    exact Follows.not_first ⟨ha, hb.2.1⟩ (hmid a hsa (by omega) ha.2.1)

omit h in
/-- The packet after it begins with a first beat. -/
theorem firstBeat : FirstBeat ports first' := by
  obtain ⟨first, last, hf, hfs, hsl, hbl, hl, hmid, hlf⟩ := hs.ex
  refine ⟨hlf.2, fun b hb => ?_⟩
  rw [hb.unique hlf.1]
  exact hl

omit h in
/-- The order of the beats. -/
theorem lt : second < first' ∧ first' < second' := by
  obtain ⟨first, last, hf, hfs, hsl, hbl, hl, hmid, hlf⟩ := hs.ex
  have h₁ := hlf.1.1
  have h₂ := hs.follows.1.1
  omega

/-- Up to the next packet the pulse moves in every cycle. -/
theorem moves_first (ht : second + 1 ≤ t) (htf : t ≤ first' + 1) :
    moves (shiftsAt ports) (second + 1) t = t - (second + 1) := by
  refine moves_of_enabled ht fun i hi hit => ?_
  obtain ⟨b, hb, hn⟩ := hs.lastBefore h (by omega : second < i) (by omega)
  exact shiftsAt_of_ne_pkt1 (ne_pkt1_of_not_first h hb hn)

/-- While the second beat of the next packet is waited for, it does not. -/
theorem moves_wait (ht : first' + 1 ≤ t) (hts : t ≤ second') :
    moves (shiftsAt ports) (second + 1) t = first' - second := by
  have hlt := hs.lt
  have hstill : moves (shiftsAt ports) (first' + 1) t = 0 := by
    refine moves_of_disabled ht fun i hi hit => ?_
    have hstate := pkt1_of_first h (hs.follows.1.of_le (by omega) (by omega : i ≤ second'))
      hs.firstBeat
    have hbeat : ¬ Beat ports i := hs.follows.1.2.2 i (by omega) (by omega)
    cases hp : (ports i).step with
    | false => simp [shiftsAt, shifts, hp, hstate]
    | true => exact absurd (beat_of_step hp (by rw [hstate]; decide)) hbeat
  rw [← moves_add (by omega : second + 1 ≤ first' + 1) ht, hstill,
    hs.moves_first h (by omega) (Nat.le_refl _)]
  omega

/-- That beat moves it on once more. -/
theorem moves_second : moves (shiftsAt ports) (second + 1) (second' + 1) =
    first' - second + 1 := by
  have hlt := hs.lt
  rw [moves_succ_of_enabled (by omega) hs.follows.2.shiftsAt,
    hs.moves_wait h (by omega) (Nat.le_refl _)]

/-- **The next packet searches two cycles after its second beat.** -/
theorem searches_iff : Searches ports second' t ↔ t = second' + 2 :=
  hs.follows.searches_iff h hs.firstBeat

/-- The cycles in which the packet in front is written. -/
theorem writes_iff : Writes ports second t ↔
    ∃ u, second < u ∧ moves (shiftsAt ports) (second + 1) u = 9 ∧ t = u + 1 := by
  obtain ⟨first, last, hf, hfs, -⟩ := hs.ex
  constructor
  · rintro ⟨u, hp, rfl⟩
    exact ⟨u, ((pulseAt_iff h hf hfs).1 hp).1, ((pulseAt_iff h hf hfs).1 hp).2, rfl⟩
  · rintro ⟨u, hu, hm, rfl⟩
    exact ⟨u, (pulseAt_iff h hf hfs).2 ⟨hu, hm⟩, rfl⟩

end Successive

/-! ## In order -/

/-- **The packet searches after the packet in front of it is written.** -/
def InOrder (ports : ℕ → AxisIn) (second second' : ℕ) : Prop :=
  ∀ t, Searches ports second' t →
    (∃ w, Writes ports second w ∧ w < t) ∧ ∀ w, Writes ports second w → w < t

/-- The rows the packet's search answers from, which are read at the edge
before its cycle, were read after the packet in front of it was written. -/
def ReadsWritten (ports : ℕ → AxisIn) (second second' : ℕ) : Prop :=
  ∀ t, Searches ports second' t → ∃ w, Writes ports second w ∧ w < t - 1

/-- **When packets are processed as if one at a time.** A packet searches
after the packet in front of it is written exactly when its first beat
comes at least nine cycles after that packet's second; and then it reads
what was written unless its own second beat comes too early. -/
theorem in_order_iff (h : LongPackets ports) (hs : Successive ports second first' second') :
    (InOrder ports second second' ↔ second + 9 ≤ first') ∧
      (ReadsWritten ports second second' ↔ second + 9 ≤ first' ∧ second + 11 ≤ second') := by
  obtain ⟨hlt, hlt'⟩ := hs.lt
  have hsearch : Searches ports second' (second' + 2) := (hs.searches_iff h).2 rfl
  have hwait := hs.moves_wait h hlt' (Nat.le_refl _)
  have hsecond := hs.moves_second h
  -- once the next packet is there, the pulse in front stands at place `first' - second - 1`
  have hwritten : second + 9 ≤ first' → Writes ports second (second + 11) := by
    intro hnine
    refine (hs.writes_iff h).2 ⟨second + 10, by omega, ?_, rfl⟩
    rw [hs.moves_first h (by omega) (by omega)]
    omega
  have hnine : ∀ w, Writes ports second w → w ≤ second' + 1 → second + 9 ≤ first' := by
    intro w hw hle
    obtain ⟨u, hu, hm, rfl⟩ := (hs.writes_iff h).1 hw
    have hmono := @moves_mono (shiftsAt ports) (second + 1) _ _
      (by omega : u ≤ second')
    omega
  refine ⟨⟨fun ho => ?_, fun hn t ht => ?_⟩, ⟨fun hr => ?_, fun hn t ht => ?_⟩⟩
  · obtain ⟨⟨w, hw, hwt⟩, -⟩ := ho _ hsearch
    exact hnine w hw (by omega)
  · rw [(hs.searches_iff h).1 ht]
    refine ⟨⟨second + 11, hwritten hn, by omega⟩, fun w hw => ?_⟩
    obtain ⟨u, hu, hm, rfl⟩ := (hs.writes_iff h).1 hw
    -- the pulse is past the place as soon as the second beat is there
    by_contra hge
    have hmono := @moves_mono (shiftsAt ports) (second + 1) _ _
      (by omega : second' + 1 ≤ u)
    omega
  · obtain ⟨w, hw, hwt⟩ := hr _ hsearch
    have hn := hnine w hw (by omega)
    refine ⟨hn, ?_⟩
    obtain ⟨u, hu, hm, rfl⟩ := (hs.writes_iff h).1 hw
    have hle := @moves_le (shiftsAt ports) _ _ (by omega : second + 1 ≤ u)
    omega
  · rw [(hs.searches_iff h).1 ht]
    exact ⟨second + 11, hwritten hn.1, by omega⟩

/-- Two packets of six beats, one right after the other. -/
def burst (t : ℕ) : AxisIn := ⟨decide (t < 12), t == 5 || t == 11, true⟩

theorem beat_burst : Beat burst t ↔ t < 12 := by
  constructor
  · exact fun h => of_decide_eq_true h.1
  · intro h
    have hall : ∀ i < 12, Beat burst i := by decide
    exact hall t h

theorem lastBefore_burst (h : t < 12) : LastBefore burst t (t + 1) :=
  (beat_burst.2 h).lastBefore

theorem longPackets_burst : LongPackets burst := by
  intro t ht
  have hlt := beat_burst.1 ht.1
  by_contra hl
  simp only [burst, Bool.not_eq_false, Bool.or_eq_true, beq_iff_eq] at hl
  rcases hl with rfl | rfl
  · exact absurd (ht.2 4 (lastBefore_burst (by omega))) (by decide)
  · exact absurd (ht.2 10 (lastBefore_burst (by omega))) (by decide)

theorem successive_burst : Successive burst 1 6 7 where
  ex := by
    refine ⟨0, 5, ⟨beat_burst.2 (by omega), fun b hb => absurd hb.1 (Nat.not_lt_zero b)⟩,
      ⟨lastBefore_burst (by omega), beat_burst.2 (by omega)⟩, by omega, beat_burst.2 (by omega),
      rfl, fun b hb hlt _ => ?_, ⟨lastBefore_burst (by omega), beat_burst.2 (by omega)⟩⟩
    simp [burst]
    omega
  follows := ⟨lastBefore_burst (by omega), beat_burst.2 (by omega)⟩

/-- The second packet of the burst comes too early for both. -/
theorem in_order_burst :
    (InOrder burst 1 7 ↔ 1 + 9 ≤ 6) ∧ (ReadsWritten burst 1 7 ↔ 1 + 9 ≤ 6 ∧ 1 + 11 ≤ 7) :=
  in_order_iff longPackets_burst successive_burst

/-- **Packets are not always processed as if one at a time**: the second
packet of the burst searches in cycle 9, and the pulse of the first has not
even reached the place at which the table is written by then. -/
theorem not_in_order : ¬ ∀ ports second first' second', LongPackets ports →
    Successive ports second first' second' → InOrder ports second second' := by
  intro hall
  have hs := successive_burst
  have hsearch : Searches burst 7 9 := (hs.searches_iff longPackets_burst).2 rfl
  obtain ⟨⟨w, hw, hlt⟩, -⟩ := hall burst 1 6 7 longPackets_burst hs 9 hsearch
  obtain ⟨u, hu, hm, rfl⟩ := (hs.writes_iff longPackets_burst).1 hw
  have hle := @moves_le (shiftsAt burst) _ _ (by omega : 1 + 1 ≤ u)
  omega

/-! ## The flow table behind it -/

/-- The ports of the flow table in a run. -/
def tablePorts (ports : ℕ → AxisIn) (q : ℕ → CuckooIn) (t : ℕ) : CuckooIn :=
  (run ports t).cuckooIn (q t)

variable {σ : CuckooReg} {q : ℕ → CuckooIn}

end Controller

end Hw

end FlowBlaze
