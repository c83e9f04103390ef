import FlowBlaze.Hw.CoreLine
/-!
# The action of a packet

A packet's own query stands at the second TCAM three cycles after its second
beat, and its action comes out of the shift registers seven cycles later. At
that time the packet's first beat is at the end of the delay line, if the
line has not stood still. The action goes on with the clock, and the packet
with the line: once the line has stood still, or for the beats behind the
first, the action is that of whatever stood at the TCAM seven cycles before.
-/

namespace FlowBlaze

namespace Hw

open Common Controller

namespace CoreReg

section Definitions

variable (k : ℕ → CoreConfig) (r : CoreReg) (ports : ℕ → CoreIn)

/-- **The row** that the query of this cycle matches: its action and the value
of it. -/
def rowAsked (t : ℕ) : BitVec 32 × BitVec 32 :=
  (r.wordAsked k ports t,
    (k (t + 1)).ram4 ((k t).matchAddr ((r.run k ports t).fullInput2 (ports t))))

/-- The packet's row: its query is that of the cycle after its search of the
flow table, when the answer stands. -/
def OwnQuery (second : ℕ) (row : BitVec 32 × BitVec 32) : Prop :=
  ∃ s, Searches (r.axisPorts k ports) second s ∧ row = r.rowAsked k ports (s + 1)

/-- The action and the value that have come out of the shift registers. -/
def rowShown (t : ℕ) : BitVec 32 × BitVec 32 :=
  ((r.run k ports t).actionD3, (r.run k ports t).actionValueD3)

/-- **The packet is being delivered**: its first beat was, or is, and its
last beat was not before; or `add_field` still has its last bytes. -/
def Outgoing (first last : ℕ) (word : BitVec 32) (t : ℕ) : Prop :=
  (∃ d ≤ t, r.Delivers k ports first d) ∧ ((∀ e < t, ¬r.Delivers k ports last e) ∨
    enableWrite word = true ∧ ∃ e < t, r.Delivers k ports last e ∧
      ∀ i, e < i → i ≤ t → (r.run k ports i).writer.state = .extraSlot)

/-- Two rows enable the same of the units that change packets. -/
def SameUnits (row row' : BitVec 32 × BitVec 32) : Prop :=
  enableWrite row.1 = enableWrite row'.1 ∧ enableModify row.1 = enableModify row'.1

/-- Two rows want the same done to the bytes of a packet: by the same unit, at
the same offset, in the same size, and with the same field, whatever the result
of the ALU. -/
def SameChange (row row' : BitVec 32 × BitVec 32) : Prop :=
  SameUnits row row' ∧ (enableWrite row.1 = true ∨ enableModify row.1 = true →
    modifyOffset row.2 = modifyOffset row'.2 ∧ modifySize row.2 = modifySize row'.2 ∧
      ∀ res1, modifyField row.1 row.2 res1 = modifyField row'.1 row'.2 res1)

/-- **The packet gets its own row**: its destination when its first beat is
delivered, and what is the same, as it says, until its last is. -/
def OwnRow (same : BitVec 32 × BitVec 32 → BitVec 32 × BitVec 32 → Prop)
    (first second last : ℕ) : Prop :=
  ∀ row, r.OwnQuery k ports second row →
    (∀ t, r.Delivers k ports first t →
      ((r.run k ports t).m0Axis (k t) (ports t)).tuser.extractLsb' 24 8 =
        row.1.extractLsb' 24 8) ∧
    ∀ t, r.Outgoing k ports first last row.1 t → same (r.rowShown k ports t) row

/-- **The queries ask alike.** The query that comes out with the packet's
first beat, as many cycles behind its own as the line has stood still, asks
for the same destination; and those that come out until its last beat is
delivered ask for the same. -/
def AsksAlike (same : BitVec 32 × BitVec 32 → BitVec 32 × BitVec 32 → Prop)
    (first second last : ℕ) : Prop :=
  (∀ t, r.Delivers k ports first t →
    (r.wordAsked k ports
        (second + 3 + still (r.lineShifts k ports) (second + 1) t)).extractLsb' 24 8 =
      (r.wordAsked k ports (second + 3)).extractLsb' 24 8) ∧
  ∀ t, r.Outgoing k ports first last (r.wordAsked k ports (second + 3)) t →
    same (r.rowAsked k ports (t - 7)) (r.rowAsked k ports (second + 3))

end Definitions

variable {c : CoreConfig} {k : ℕ → CoreConfig} {r : CoreReg} {ports : ℕ → CoreIn}
  {a b d t first second last : ℕ}

/-! ## The two ways -/

/-- **The action comes seven cycles after the query**, whatever the line does. -/
theorem actionD3_add (t : ℕ) :
    (r.run k ports (t + 7)).actionD3 = r.wordAsked k ports t := rfl

/-- And so does its value. -/
theorem rowShown_add (t : ℕ) : r.rowShown k ports (t + 7) = r.rowAsked k ports t := rfl

@[simp] theorem rowShown_fst (t : ℕ) :
    (r.rowShown k ports t).1 = (r.run k ports t).actionD3 := rfl

@[simp] theorem rowAsked_fst (t : ℕ) : (r.rowAsked k ports t).1 = r.wordAsked k ports t := rfl

/-! ## The row of the packet -/

/-- A packet's own query is the one three cycles after its second beat. -/
theorem ownQuery_iff {row : BitVec 32 × BitVec 32} (hlong : LongPackets (r.axisPorts k ports))
    (hp : PacketAt (r.axisPorts k ports) first second last) :
    r.OwnQuery k ports second row ↔ row = r.rowAsked k ports (second + 3) := by
  constructor
  · rintro ⟨s, hs, rfl⟩
    rw [(hp.follows.searches_iff hlong hp.firstBeat).mp hs]
  · rintro rfl
    exact ⟨second + 2, (hp.follows.searches_iff hlong hp.firstBeat).mpr rfl, rfl⟩

/-- **What comes out** from the first beat on is what stood at the TCAM seven
cycles before. -/
theorem rowShown_of_delivers (hr : r.AfterReset) (hlong : LongPackets (r.axisPorts k ports))
    (hp : PacketAt (r.axisPorts k ports) first second last) (hd : r.Delivers k ports first d)
    (hdt : d ≤ t) : r.rowShown k ports t = r.rowAsked k ports (t - 7) := by
  have heq := eq_of_delivers hr hlong hp.firstBeat hp.follows hd
  obtain ⟨u, rfl⟩ : ∃ u, t = u + 7 := ⟨t - 7, by omega⟩
  rw [rowShown_add, Nat.add_sub_cancel]

/-- The first beat leaves with the destination of that row. -/
theorem destination_of_delivers (hr : r.AfterReset) (htest : ∀ t, (k t).regTest0 = 0)
    (hlong : LongPackets (r.axisPorts k ports))
    (hp : PacketAt (r.axisPorts k ports) first second last) (hd : r.Delivers k ports first d) :
    ((r.run k ports d).m0Axis (k d) (ports d)).tuser.extractLsb' 24 8 =
      (r.wordAsked k ports (d - 7)).extractLsb' 24 8 := by
  rw [destination_m0Axis, destination, if_pos (htest d), ← rowShown_fst,
    rowShown_of_delivers hr hlong hp hd (Nat.le_refl d), rowAsked_fst]

/-- **When a packet gets its own row**, as far as rows are compared. -/
theorem ownRow_iff_asksAlike
    {same : BitVec 32 × BitVec 32 → BitVec 32 × BitVec 32 → Prop} (hr : r.AfterReset)
    (htest : ∀ t, (k t).regTest0 = 0) (hlong : LongPackets (r.axisPorts k ports))
    (hp : PacketAt (r.axisPorts k ports) first second last) :
    r.OwnRow k ports same first second last ↔ r.AsksAlike k ports same first second last := by
  have hdestination := fun d (hd : r.Delivers k ports first d) =>
    destination_of_delivers hr htest hlong hp hd
  have hshown : ∀ word t, r.Outgoing k ports first last word t →
      r.rowShown k ports t = r.rowAsked k ports (t - 7) := by
    rintro word t ⟨⟨d, hdt, hd⟩, -⟩
    exact rowShown_of_delivers hr hlong hp hd hdt
  -- the first beat is held up by the cycles in which the line stands still
  have hheld : ∀ d, r.Delivers k ports first d →
      d - 7 = second + 3 + still (r.lineShifts k ports) (second + 1) d := fun d hd => by
    have heq := eq_of_delivers hr hlong hp.firstBeat hp.follows hd
    omega
  constructor
  · intro hown
    obtain ⟨hfirst, hlast⟩ := hown _ ((ownQuery_iff hlong hp).mpr rfl)
    refine ⟨fun d hd => ?_, fun t ht => ?_⟩
    · rw [← hheld d hd, ← hdestination d hd, hfirst d hd, rowAsked_fst]
    · rw [← hshown _ t ht]
      exact hlast t ht
  · rintro ⟨hfirst, hlast⟩ row hown
    obtain rfl := (ownQuery_iff hlong hp).mp hown
    refine ⟨fun d hd => ?_, fun t ht => ?_⟩
    · rw [hdestination d hd, hheld d hd]
      exact hfirst d hd
    · rw [hshown _ t ht]
      exact hlast t ht

/-- **When a packet gets its own action**: its destination, and the unit that
changes it. -/
theorem ownAction_iff (hr : r.AfterReset) (htest : ∀ t, (k t).regTest0 = 0)
    (hlong : LongPackets (r.axisPorts k ports))
    (hp : PacketAt (r.axisPorts k ports) first second last) :
    r.OwnRow k ports SameUnits first second last ↔
      r.AsksAlike k ports SameUnits first second last :=
  ownRow_iff_asksAlike hr htest hlong hp

/-- The header's first bit is that of the beat taken last in `IDLE`. -/
theorem getLsbD_nextHeader {x : CoreIn} : (r.nextHeader c x).getLsbD 0 =
    if r.takesFirst c x then x.s0Axis.tdata.getLsbD 0 else r.fullHeader.getLsbD 0 := by
  have hlower : ∀ (upper : BitVec 176) (lower : BitVec 256),
      (upper ++ lower : BitVec 432).getLsbD 0 = lower.getLsbD 0 := fun upper lower =>
    BitVec.getLsbD_append.trans (if_pos (by decide))
  have hkept : (r.fullHeader.extractLsb' 0 256).getLsbD 0 = r.fullHeader.getLsbD 0 := by
    rw [BitVec.getLsbD_extractLsb']
    rfl
  unfold nextHeader takesFirst
  cases r.controller.currState with
  | idle =>
    cases (r.axisIn c x).step with
    | false => rfl
    | true => exact hlower _ _
  | pkt1 =>
    cases (r.axisIn c x).step with
    | false => rfl
    | true => exact (hlower _ _).trans hkept
  | pkt2 => rfl
  | wait5 => rfl

/-- Two entries of the TCAM, for packets that begin with an odd byte and for
the others, which leave by different ports. -/
def twoPorts : CoreConfig where
  pause := 0
  regTest0 := 0
  offO := fun _ => 0
  lenO := fun _ => 3
  cam := { CamReg.initial with
    cam2 := fun i =>
      if i.val = 0 then some (1#120 <<< 24, ~~~(1#120 <<< 24))
      else if i.val = 1 then some (0, ~~~(1#120 <<< 24))
      else none }
  missAddr := 2
  ram3 := fun a => if a.val = 0 then 0x01000000 else 0x04000000
  ram4 := fun _ => 0

/-- Nobody changes them. -/
def twoPortsAt (_ : ℕ) : CoreConfig := twoPorts

/-- All registers are zero. -/
def start : CoreReg where
  controller := .initial
  metadata1 := 0
  metadata2 := 0
  dstIf := 0
  srcIf := 0
  fullHeader := 0
  fullHeaderD := fun _ => 0
  o := fun _ => 0
  matchAddrTcam2 := 0
  action := 0
  actionValue := 0
  sh2 := fun _ => 0
  sh3 := fun _ => 0
  delayer := ⟨fun _ => 0, ⟨0, 0, 0, false, false⟩⟩
  writer := ⟨.idle, 0, 0, 0, 0, 0, 0⟩
  modify := ⟨.idle, 0, 0, 0, 0⟩

/-- A packet of six odd beats and one of two even ones behind it. The
receiver is held up for five cycles, or never. -/
def twoPackets (held : Bool) (t : ℕ) : AxisIn :=
  ⟨decide (t < 8), t == 5 || t == 7, !(held && decide (8 ≤ t ∧ t < 13))⟩

/-- These packets, whatever the other ports are. -/
def twoPacketsWith (side : ℕ → CoreIn) (held : Bool) (t : ℕ) : CoreIn :=
  { side t with
    s0Axis := ⟨if t < 6 then 1 else 2, 0, 0xffffffff, (twoPackets held t).tvalid,
      (twoPackets held t).tlast⟩
    m0AxisTready := (twoPackets held t).intTready }

/-- Nothing at the other ports. -/
def idlePorts : CoreIn := ⟨⟨0, 0, 0, false, false⟩, false, 0, 0, 0, 0, 0⟩

/-- A first beat is taken. -/
def takesFirstAt (held : Bool) (t : ℕ) : Bool :=
  (Controller.run (twoPackets held) t).currState == .idle && (twoPackets held t).step

/-- The cycles in which the line moves. -/
def lineMoves (held : Bool) (t : ℕ) : Bool :=
  !((Controller.run (twoPackets held) t).currState == .pkt1 && !(twoPackets held t).tvalid) &&
    (twoPackets held t).intTready

section TwoPackets

variable {side : ℕ → CoreIn} {held : Bool}

theorem afterReset_start : start.AfterReset :=
  ⟨rfl, rfl, rfl, rfl, rfl, ⟨rfl, rfl, rfl⟩, ⟨rfl, rfl⟩⟩

/-- No action asks for an insertion. -/
theorem enableWrite_twoPackets (t : ℕ) :
    enableWrite (start.run twoPortsAt (twoPacketsWith side held) t).actionD3 = false := by
  have hzero : enableWrite 0 = false := by decide
  refine @actionD3_run _ start _ (fun word => enableWrite word = false) (fun t a => ?_)
    hzero (fun _ => hzero) t
  change enableWrite (if a.val = 0 then 0x01000000 else 0x04000000) = false
  split <;> decide

theorem writeTready_twoPackets (t : ℕ) :
    (start.run twoPortsAt (twoPacketsWith side held) t).writeTready (twoPacketsWith side held t) =
      (twoPackets held t).intTready := by
  rw [Bool.eq_iff_iff, writeTready_iff]
  exact and_iff_left fun hextra =>
    Bool.false_ne_true ((enableWrite_twoPackets t).symm.trans hextra.1)

theorem axisPorts_twoPackets :
    start.axisPorts twoPortsAt (twoPacketsWith side held) = twoPackets held := by
  funext t
  change (⟨_, _, ((start.run twoPortsAt (twoPacketsWith side held) t).writeTready
    (twoPacketsWith side held t))⟩ : AxisIn) = _
  rw [writeTready_twoPackets]
  rfl

/-- What the controller does with them. -/
theorem controller_twoPackets : ∀ held, (∀ i < 8, Beat (twoPackets held) i) ∧
    (takesFirstAt held 0 = true ∧ takesFirstAt held 1 = false ∧ takesFirstAt held 6 = true) ∧
    shiftsAt (twoPackets held) 2 = true ∧ shiftsAt (twoPackets held) 7 = true := by
  decide +kernel

/-- What the line does. -/
theorem lineMoves_twoPackets : (∀ t ≤ 11, lineMoves false t = true) ∧
    moves (lineMoves true) 0 16 = 11 ∧ lineMoves true 16 = true := by
  decide +kernel

theorem beat_twoPackets : Beat (twoPackets held) t ↔ t < 8 := by
  constructor
  · exact fun h => of_decide_eq_true h.1
  · exact fun h => (controller_twoPackets held).1 t h

theorem lastBefore_twoPackets (h : t < 8) : LastBefore (twoPackets held) t (t + 1) :=
  (beat_twoPackets.mpr h).lastBefore

theorem longPackets_twoPackets : LongPackets (twoPackets held) := by
  intro t ht
  have hlt := beat_twoPackets.mp ht.1
  by_contra hl
  simp only [twoPackets, Bool.not_eq_false, Bool.or_eq_true, beq_iff_eq] at hl
  rcases hl with rfl | rfl
  · exact absurd (ht.2 4 (lastBefore_twoPackets (by omega))) Bool.false_ne_true
  · exact absurd (ht.2 6 (lastBefore_twoPackets (by omega))) Bool.false_ne_true

theorem packet_twoPackets : PacketAt (twoPackets held) 0 1 5 where
  firstBeat := ⟨beat_twoPackets.mpr (by omega), fun b hb => absurd hb.1 (Nat.not_lt_zero b)⟩
  follows := ⟨lastBefore_twoPackets (by omega), beat_twoPackets.mpr (by omega)⟩
  le := by omega
  beat := beat_twoPackets.mpr (by omega)
  tlast := rfl
  inner b hb hlt _ := by
    simp [twoPackets]
    omega

theorem lineShifts_twoPackets (t : ℕ) :
    start.lineShifts twoPortsAt (twoPacketsWith side held) t = lineMoves held t := by
  have hstate : (start.run twoPortsAt (twoPacketsWith side held) t).controller =
      Controller.run (twoPackets held) t := by
    rw [controller_run afterReset_start, axisPorts_twoPackets]
  rw [Bool.eq_iff_iff, lineShifts_iff, writeTready_twoPackets, slotDelayer, hstate, lineMoves,
    Bool.and_eq_true]
  exact and_congr_right' (and_iff_right rfl)

/-- **The line does not stand still**, unless the receiver is held up. -/
theorem lineShifts_unheld (h : t ≤ 11) :
    start.lineShifts twoPortsAt (twoPacketsWith side false) t = true := by
  rw [lineShifts_twoPackets]
  exact lineMoves_twoPackets.1 t h

/-- So the packet is delivered at once. -/
theorem le_of_delivers_unheld
    (hd : start.Delivers twoPortsAt (twoPacketsWith side false) 0 t) : t ≤ 11 := by
  have htwelve : moves (start.lineShifts twoPortsAt (twoPacketsWith side false)) 0 12 = 12 :=
    moves_of_enabled (by omega) fun i _ hi => lineShifts_unheld (by omega)
  have hmoves := hd.1
  by_contra hlt
  have hmono := @moves_mono (start.lineShifts twoPortsAt (twoPacketsWith side false)) 0 12 t
    (by omega)
  omega

/-- Held up, the packet is delivered five cycles late. -/
theorem delivers_twoPackets :
    start.Delivers twoPortsAt (twoPacketsWith side true) 0 16 := by
  have hmoves : start.lineShifts twoPortsAt (twoPacketsWith side true) = lineMoves true :=
    funext lineShifts_twoPackets
  rw [delivers_iff afterReset_start, hmoves]
  · exact lineMoves_twoPackets.2
  · rw [axisPorts_twoPackets]
    exact packet_twoPackets.firstBeat.1

/-- Only one bit of a query is compared. -/
theorem entryMatches_oneBit (value word : BitVec 120) :
    entryMatches (value, ~~~(1#120 <<< 24)) word = (word.getLsbD 24 == value.getLsbD 24) := by
  rw [Bool.eq_iff_iff, entryMatches_iff, beq_iff_eq]
  have hmask : ∀ b < 120, (~~~(1#120 <<< 24)).getLsbD b = !decide (b = 24) := by decide
  constructor
  · intro h
    refine (h 24 (by decide)).resolve_left ?_
    rw [hmask 24 (by decide)]
    decide
  · intro h b hb
    rw [hmask b hb]
    by_cases hbit : b = 24
    · exact .inr (hbit ▸ h)
    · exact .inl (by rw [decide_eq_false hbit]; rfl)

/-- **Which row is asked** is the first bit of the header. -/
theorem ram3_twoPorts (word : BitVec 120) : twoPorts.ram3 (twoPorts.matchAddr word) =
    if word.getLsbD 24 then 0x01000000 else 0x04000000 := by
  have hrows : List.finRange 32 = 0 :: 1 :: (List.finRange 32).drop 2 := by decide
  have hzero : twoPorts.cam.matchLine word 0 = word.getLsbD 24 := by
    change entryMatches (1#120 <<< 24, ~~~(1#120 <<< 24)) word = _
    rw [entryMatches_oneBit]
    cases word.getLsbD 24 <;> decide
  have hone : twoPorts.cam.matchLine word 1 = !word.getLsbD 24 := by
    change entryMatches (0, ~~~(1#120 <<< 24)) word = _
    rw [entryMatches_oneBit]
    cases word.getLsbD 24 <;> decide
  unfold CoreConfig.matchAddr CamReg.lookup
  rw [hrows, List.find?_cons, hzero, List.find?_cons, hone]
  cases word.getLsbD 24 with
  | true => rfl
  | false => rfl

/-- The query shows the first bit of the header as it stood two cycles
before. -/
theorem getLsbD_fullInput2 (x : CoreIn) (t : ℕ) :
    ((r.run twoPortsAt ports (t + 1)).fullInput2 x).getLsbD 24 =
      ((r.run twoPortsAt ports t).fullHeaderD place0).getLsbD 0 := by
  have hquery : ∀ (o3 o2 o1 : BitVec 32) (conditions : BitVec 16) (state : BitVec 8),
      (Hw.fullInput2 o3 o2 o1 conditions state).getLsbD 24 = o1.getLsbD 0 := by
    intro o3 o2 o1 conditions state
    unfold Hw.fullInput2
    rw [BitVec.getLsbD_append, if_neg (by decide), BitVec.getLsbD_append, if_neg (by decide),
      BitVec.getLsbD_append, if_pos (by decide)]
  refine (hquery _ _ _ _ _).trans ?_
  change (sam32Sized ((r.run twoPortsAt ports t).fullHeaderD place0) (0#1 ++ 0#6) 3#2).getLsbD 0 = _
  have hsized : ∀ header : BitVec 432, sam32Sized header (0#1 ++ 0#6) 3#2 = sam32 header 0#7 :=
    fun _ => rfl
  rw [hsized, sam32, BitVec.getLsbD_extractLsb', BitVec.getLsbD_setWidth]
  rfl

/-- The first bit of the header that a query is taken from. -/
theorem wordAsked_twoPorts (t : ℕ) : r.wordAsked twoPortsAt ports (t + 1) =
    if ((r.run twoPortsAt ports t).fullHeaderD place0).getLsbD 0 then 0x01000000
    else 0x04000000 := by
  change twoPorts.ram3 (twoPorts.matchAddr _) = _
  rw [ram3_twoPorts, getLsbD_fullInput2]

/-- The header goes on to the register that the query is taken from. -/
theorem fullHeaderD_twoPackets (h : shiftsAt (twoPackets held) t = true) :
    (start.run twoPortsAt (twoPacketsWith side held) (t + 1)).fullHeaderD place0 =
      (start.run twoPortsAt (twoPacketsWith side held) t).fullHeader := by
  refine congrFun (if_pos ?_) place0
  change (start.run twoPortsAt (twoPacketsWith side held) t).controller.shifts
    (start.axisPorts twoPortsAt (twoPacketsWith side held) t) = true
  rw [controller_run afterReset_start, axisPorts_twoPackets]
  exact h

/-- The first bit of the header is that of the packet whose first beat was
taken last. -/
theorem fullHeader_twoPackets (t : ℕ) :
    (start.run twoPortsAt (twoPacketsWith side held) (t + 1)).fullHeader.getLsbD 0 =
      if takesFirstAt held t then decide (t < 6)
      else (start.run twoPortsAt (twoPacketsWith side held) t).fullHeader.getLsbD 0 := by
  have htakes : (start.run twoPortsAt (twoPacketsWith side held) t).takesFirst twoPorts
      (twoPacketsWith side held t) = takesFirstAt held t := by
    change ((start.run twoPortsAt (twoPacketsWith side held) t).controller.currState == .idle &&
      (start.axisPorts twoPortsAt (twoPacketsWith side held) t).step) = _
    rw [controller_run afterReset_start, axisPorts_twoPackets]
    rfl
  have hdata : (twoPacketsWith side held t).s0Axis.tdata.getLsbD 0 = decide (t < 6) := by
    change (if t < 6 then (1 : BitVec 256) else 2).getLsbD 0 = _
    split_ifs with hlt
    · rw [decide_eq_true hlt]
      decide
    · rw [decide_eq_false hlt]
      decide
  rw [← htakes, ← hdata]
  exact getLsbD_nextHeader

/-- The first packet's own query. -/
theorem wordAsked_first :
    start.wordAsked twoPortsAt (twoPacketsWith side held) 4 = 0x01000000 := by
  obtain ⟨-, ⟨htakes, hnot, -⟩, hshifts, -⟩ := controller_twoPackets held
  rw [wordAsked_twoPorts, fullHeaderD_twoPackets hshifts, fullHeader_twoPackets,
    fullHeader_twoPackets, htakes, hnot]
  rfl

/-- Five cycles later the second packet's header is there. -/
theorem wordAsked_second :
    start.wordAsked twoPortsAt (twoPacketsWith side held) 9 = 0x04000000 := by
  obtain ⟨-, ⟨-, -, htakes⟩, -, hshifts⟩ := controller_twoPackets held
  rw [wordAsked_twoPorts, fullHeaderD_twoPackets hshifts, fullHeader_twoPackets, htakes]
  rfl

theorem longPackets_axisPorts : LongPackets
    (start.axisPorts twoPortsAt (twoPacketsWith side held)) := by
  rw [axisPorts_twoPackets]
  exact longPackets_twoPackets

theorem packetAt_axisPorts : PacketAt
    (start.axisPorts twoPortsAt (twoPacketsWith side held)) 0 1 5 := by
  rw [axisPorts_twoPackets]
  exact packet_twoPackets

/-- None of the two rows asks for a change. -/
theorem sameChange_twoPorts (t t' : ℕ) :
    SameChange (r.rowAsked twoPortsAt ports t) (r.rowAsked twoPortsAt ports t') := by
  have hnone : ∀ t, enableWrite (r.rowAsked twoPortsAt ports t).1 = false ∧
      enableModify (r.rowAsked twoPortsAt ports t).1 = false := by
    intro t
    change enableWrite (twoPorts.ram3 (twoPorts.matchAddr _)) = false ∧
      enableModify (twoPorts.ram3 (twoPorts.matchAddr _)) = false
    rw [ram3_twoPorts]
    split_ifs <;> exact ⟨by decide, by decide⟩
  obtain ⟨hwrite, hmodify⟩ := hnone t
  obtain ⟨hwrite', hmodify'⟩ := hnone t'
  refine ⟨⟨hwrite.trans hwrite'.symm, hmodify.trans hmodify'.symm⟩, fun hchanged => ?_⟩
  rw [hwrite, hmodify] at hchanged
  exact absurd hchanged (by decide)

/-- **In step** the queries ask alike. -/
theorem asksAlike_twoPackets {same : BitVec 32 × BitVec 32 → BitVec 32 × BitVec 32 → Prop}
    (hsame : ∀ t t', same
      (start.rowAsked twoPortsAt (twoPacketsWith side false) t)
      (start.rowAsked twoPortsAt (twoPacketsWith side false) t')) :
    start.AsksAlike twoPortsAt (twoPacketsWith side false) same 0 1 5 := by
  refine ⟨fun t hd => ?_, fun _ _ => hsame _ _⟩
  have hle := le_of_delivers_unheld hd
  have heq : t = 1 + 10 +
      still (start.lineShifts twoPortsAt (twoPacketsWith side false)) (1 + 1) t :=
    eq_of_delivers afterReset_start longPackets_axisPorts packetAt_axisPorts.firstBeat
      packetAt_axisPorts.follows hd
  have hstill : still (start.lineShifts twoPortsAt (twoPacketsWith side false)) (1 + 1) t = 0 := by
    omega
  rw [hstill]

/-- Then the packet gets its own action, -/
theorem ownAction_twoPackets :
    start.OwnRow twoPortsAt (twoPacketsWith (fun _ => idlePorts) false) SameUnits 0 1 5 :=
  (ownAction_iff afterReset_start (fun _ => rfl) longPackets_axisPorts packetAt_axisPorts).mpr
    (asksAlike_twoPackets fun t t' => (sameChange_twoPorts t t').1)

/-- **Held up, it leaves by the port of the packet behind it.** -/
theorem not_ownAction : ¬∀ (k : CoreConfig) (ports : ℕ → CoreIn) (first second last : ℕ),
    k.pause = 0 → k.regTest0 = 0 → LongPackets (start.axisPorts (fun _ => k) ports) →
      PacketAt (start.axisPorts (fun _ => k) ports) first second last →
        start.OwnRow (fun _ => k) ports SameUnits first second last := by
  intro hall
  have hown : start.OwnRow twoPortsAt (twoPacketsWith (fun _ => idlePorts) true) SameUnits 0 1 5 :=
    hall twoPorts _ 0 1 5 rfl rfl longPackets_axisPorts packetAt_axisPorts
  have hquery : start.OwnQuery twoPortsAt (twoPacketsWith (fun _ => idlePorts) true) 1
      (start.rowAsked twoPortsAt (twoPacketsWith (fun _ => idlePorts) true) 4) :=
    ⟨3, (packetAt_axisPorts.follows.searches_iff longPackets_axisPorts
      packetAt_axisPorts.firstBeat).mpr rfl, rfl⟩
  have hshown := (hown _ hquery).1 16 delivers_twoPackets
  rw [destination_m0Axis, destination, if_pos (show (twoPortsAt 16).regTest0 = 0 from rfl),
    actionD3_add, wordAsked_second, rowAsked_fst, wordAsked_first] at hshown
  exact absurd hshown (by decide)

end TwoPackets

end CoreReg

end Hw

end FlowBlaze
