import FlowBlaze.Hw.ControllerSpec
/-!
# Packets far enough apart

A packet that begins eleven cycles behind the second beat of the one in
front does not hold up that packet's pulse: the pulse moves in every cycle,
so that it stands where the clock says. `WAIT5` sees to the distance where a
packet ends soon after its second beat.
-/

namespace FlowBlaze

namespace Hw

open Common

namespace Controller

/-- **A packet begins that many cycles** behind the second beat of any packet
in front of it. -/
def Apart (ports : ℕ → AxisIn) (n : ℕ) : Prop :=
  ∀ first second first', FirstBeat ports first → Follows ports first second →
    FirstBeat ports first' → second < first' → second + n ≤ first'

/-- **A packet**: the cycles in which its first, its second and its last beat
are taken. -/
structure PacketAt (ports : ℕ → AxisIn) (first second last : ℕ) : Prop where
  firstBeat : FirstBeat ports first
  follows : Follows ports first second
  le : second ≤ last
  beat : Beat ports last
  tlast : (ports last).tlast = true
  inner : ∀ b, second ≤ b → b < last → Beat ports b → (ports b).tlast = false

/-- The second beat of a packet is taken in this cycle. -/
def TakesSecond (ports : ℕ → AxisIn) (t : ℕ) : Prop :=
  ∃ first, FirstBeat ports first ∧ Follows ports first t

variable {ports : ℕ → AxisIn} {first second second' t u : ℕ} {k : Fin 12}

/-- The state machine knows when it is. -/
theorem takesSecond_iff (h : LongPackets ports) :
    TakesSecond ports t ↔ (run ports t).currState = .pkt1 ∧ (ports t).step = true := by
  constructor
  · rintro ⟨first, hf, hs⟩
    exact ⟨pkt1_of_first h hs.1 hf, hs.2.step⟩
  · rintro ⟨hstate, hstep⟩
    have hknows := knows h t
    rw [hstate] at hknows
    obtain ⟨first, hl, hf⟩ := hknows
    exact ⟨first, hf, hl, beat_of_step hstep (by rw [hstate]; decide)⟩

/-- **Nothing holds a packet up** in the eleven cycles behind its second beat. -/
theorem shiftsAt_of_apart (h : LongPackets ports) (ha : Apart ports 11)
    (hs : TakesSecond ports second) (hlt : second < u) (hle : u ≤ second + 11) :
    shiftsAt ports u = true := by
  obtain ⟨first, hf, hfollows⟩ := hs
  obtain ⟨b, hsb, hb⟩ := exists_lastBefore hfollows.2 hlt
  refine shiftsAt_of_ne_pkt1 (ne_pkt1_of_not_first h hb fun hfirst => ?_)
  rcases Nat.eq_or_lt_of_le hsb with heq | hgt
  · rw [← heq] at hfirst
    exact hfollows.not_first (h first hf) hfirst
  · have hapart := ha first second b hf hfollows hfirst hgt
    have hbu := hb.1
    omega

/-- **The pulse of a packet stands where the clock says.** -/
theorem pulseAt_iff_of_apart (h : LongPackets ports) (ha : Apart ports 11)
    (hf : FirstBeat ports first) (hs : Follows ports first second) (hk : k.val ≤ 9) :
    PulseAt ports second k t ↔ t = second + k.val + 2 := by
  have hmoves : ∀ n, n ≤ 11 → moves (shiftsAt ports) (second + 1) (second + 1 + n) = n := by
    intro n hn
    rw [moves_of_enabled (by omega) fun i hi hit =>
      shiftsAt_of_apart h ha ⟨first, hf, hs⟩ (by omega) (by omega)]
    omega
  rw [pulseAt_iff h hf hs]
  constructor
  · rintro ⟨hlt, hm⟩
    rcases Nat.lt_or_ge (second + 12) t with hgt | hle
    · have hmono := @moves_mono (shiftsAt ports) (second + 1) _ _ (by omega : second + 12 ≤ t)
      have heleven := hmoves 11 (Nat.le_refl _)
      rw [show second + 1 + 11 = second + 12 by omega] at heleven
      omega
    · have hsome := hmoves (t - (second + 1)) (by omega)
      rw [show second + 1 + (t - (second + 1)) = t by omega] at hsome
      omega
  · rintro rfl
    refine ⟨by omega, ?_⟩
    rw [show second + k.val + 2 = second + 1 + (k.val + 1) by omega]
    exact hmoves _ (by omega)

/-- So a place of `startd` is high in one cycle for each packet. -/
theorem startd_iff_of_apart (h : LongPackets ports) (ha : Apart ports 11) (hk : k.val ≤ 9) :
    (run ports t).startd k = true ↔
      ∃ second, TakesSecond ports second ∧ t = second + k.val + 2 := by
  rw [startd_iff h]
  constructor
  · rintro ⟨first, second, hf, hs, hp⟩
    exact ⟨second, ⟨first, hf, hs⟩, (pulseAt_iff_of_apart h ha hf hs hk).mp hp⟩
  · rintro ⟨second, ⟨first, hf, hs⟩, ht⟩
    exact ⟨first, second, hf, hs, (pulseAt_iff_of_apart h ha hf hs hk).mpr ht⟩

/-- The second beats of two packets are twelve cycles apart. -/
theorem second_apart (ha : Apart ports 11) (h : LongPackets ports) (hs : TakesSecond ports second)
    (hs' : TakesSecond ports second') (hlt : second < second') : second + 12 ≤ second' := by
  obtain ⟨first, hf, hfollows⟩ := hs
  obtain ⟨first', hf', hfollows'⟩ := hs'
  have hgt : second < first' := by
    by_contra hle
    rcases Nat.eq_or_lt_of_le (Nat.le_of_not_lt hle) with heq | hbefore
    · rw [heq] at hf'
      exact hfollows.not_first (h first hf) hf'
    · exact hfollows'.1.2.2 second hbefore hlt hfollows.2
  have hapart := ha first second first' hf hfollows hf' hgt
  have hnext := hfollows'.1.1
  omega

/-! ## What `WAIT5` sees to -/

/-- Behind the second beat of a packet the frames are counted. The packet goes
on, or it has ended early and the next one is made to wait. -/
def Occupied (ports : ℕ → AxisIn) (second n : ℕ) : Prop :=
  (run ports (second + 1 + n)).countFrames = BitVec.ofNat 32 (2 + n) ∧
    ((run ports (second + 1 + n)).currState = .wait5 ∨
      (run ports (second + 1 + n)).currState = .pkt2 ∧
        ∀ b, second ≤ b → b < second + 1 + n → Beat ports b → (ports b).tlast = false)

/-- A small number of frames. -/
theorem countFrames_compare {n : ℕ} (hn : n < 9) :
    (BitVec.ofNat 32 (2 + n) < 5 ↔ n < 3) ∧ ¬BitVec.ofNat 32 (2 + n) > 10 := by
  have hsmall : (BitVec.ofNat 32 (2 + n)).toNat = 2 + n := by
    rw [BitVec.toNat_ofNat, Nat.mod_eq_of_lt (by omega)]
  refine ⟨?_, fun hgt => ?_⟩
  · rw [BitVec.lt_def, hsmall]
    change 2 + n < 5 ↔ n < 3
    omega
  · have hlt : (10#32).toNat < 2 + n := hsmall ▸ BitVec.lt_def.mp hgt
    change 10 < 2 + n at hlt
    omega

/-- **The first frame.** -/
theorem occupied_zero (h : LongPackets ports) (hs : TakesSecond ports second) :
    Occupied ports second 0 := by
  obtain ⟨hstate, hstep⟩ := (takesSecond_iff h).mp hs
  refine ⟨if_pos hstate, ?_⟩
  change (run ports second).nextState (ports second) = .wait5 ∨
    (run ports second).nextState (ports second) = .pkt2 ∧ _
  unfold nextState
  rw [hstate, hstep]
  cases hlast : (ports second).tlast with
  | true => exact .inl rfl
  | false =>
    refine .inr ⟨rfl, fun b hle hlt _ => ?_⟩
    obtain rfl : b = second := by omega
    exact hlast

/-- **Another frame**: nothing is over before the eleventh. -/
theorem Occupied.succ {n : ℕ} (ho : Occupied ports second n) (hn : n < 9)
    (hf : FirstBeat ports first) (hs : Follows ports first second)
    (hends : ∀ last, PacketAt ports first second last → last ≤ second + 3 ∨ second + 10 ≤ last) :
    Occupied ports second (n + 1) := by
  obtain ⟨hcount, hstate⟩ := ho
  have hne : (run ports (second + 1 + n)).currState ≠ .pkt1 := by
    rcases hstate with hstate | ⟨hstate, -⟩ <;> rw [hstate] <;> decide
  obtain ⟨hfive, hten⟩ := countFrames_compare hn
  refine ⟨(if_neg hne).trans ?_, ?_⟩
  · rw [show (second + 1).add n = second + 1 + n from rfl, hcount, ← Nat.add_assoc]
    exact (BitVec.ofNat_add (2 + n) 1).symm
  · change (run ports (second + 1 + n)).nextState (ports (second + 1 + n)) = .wait5 ∨
      (run ports (second + 1 + n)).nextState (ports (second + 1 + n)) = .pkt2 ∧ _
    unfold nextState
    rcases hstate with hstate | ⟨hstate, hinner⟩
    · rw [hcount, hstate]
      exact .inl (if_neg hten)
    · have hbeat : (ports (second + 1 + n)).step = true → Beat ports (second + 1 + n) :=
        fun hstep => beat_of_step hstep (by rw [hstate]; decide)
      rw [hcount, hstate]
      cases hlast : (ports (second + 1 + n)).step && (ports (second + 1 + n)).tlast with
      | true =>
        -- the packet ends here, so it ends early
        obtain ⟨hstep, htlast⟩ := (Bool.and_eq_true _ _).mp hlast
        have hend := hends _ ⟨hf, hs, by omega, hbeat hstep, htlast, hinner⟩
        exact .inl (if_pos (hfive.mpr (by omega)))
      | false =>
        refine .inr ⟨rfl, fun b hle hlt hb => ?_⟩
        rcases Nat.lt_or_ge b (second + 1 + n) with hbefore | hnow
        · exact hinner b hle hbefore hb
        · obtain rfl : b = second + 1 + n := by omega
          rw [hb.step, Bool.true_and] at hlast
          exact hlast

/-- A first beat is taken in `IDLE`. -/
theorem idle_of_first (h : LongPackets ports) (hf : FirstBeat ports first) :
    (run ports first).currState = .idle := by
  have hknows := knows h first
  cases hstate : (run ports first).currState with
  | idle => rfl
  | pkt1 =>
    rw [hstate] at hknows
    obtain ⟨b, hb, hfirst⟩ := hknows
    exact absurd (hf.2 b hb) (Bool.eq_false_iff.mp (h b hfirst))
  | pkt2 =>
    rw [hstate] at hknows
    obtain ⟨b, hb, hlast, -⟩ := hknows
    exact absurd (hf.2 b hb) (Bool.eq_false_iff.mp hlast)
  | wait5 => exact absurd hstate hf.1.ne_wait5

/-- **Packets that end early, or late, are apart**: in the first case `WAIT5`
makes the next one wait. -/
theorem apart_of_ends (h : LongPackets ports)
    (hends : ∀ first second last, PacketAt ports first second last →
      last ≤ second + 3 ∨ second + 10 ≤ last) : Apart ports 11 := by
  intro first second first' hf hs hf' hlt
  have hall : ∀ n < 10, Occupied ports second n := by
    intro n hn
    induction n with
    | zero => exact occupied_zero h ⟨first, hf, hs⟩
    | succ n ih => exact (ih (by omega)).succ (by omega) hf hs (hends first second)
  by_contra hnear
  obtain ⟨n, rfl⟩ : ∃ n, first' = second + 1 + n := ⟨first' - (second + 1), by omega⟩
  have hidle := idle_of_first h hf'
  rcases (hall n (by omega)).2 with hstate | ⟨hstate, -⟩
  · rw [hstate] at hidle
    cases hidle
  · rw [hstate] at hidle
    cases hidle

end Controller

end Hw

end FlowBlaze
