import Shipwreck.Input.Mouse

/-!
# The packets of the mouse

`mouse_packet` slides its ring on by one byte when the first byte in it cannot begin a packet. So what
it decodes is the stream read by `packets`; and of a stream of aligned packets these are the ones without
an overflow bit, unless a data byte of one that is dropped can begin a packet itself
(`packets_aligned`). `packets_whole` says what that makes of the pointer.
-/

namespace Shipwreck.Input

/-- The three bytes of a packet. -/
structure Packet where
  b0 : UInt8
  b1 : UInt8
  b2 : UInt8
  deriving DecidableEq, Repr

/-- The bytes as they are sent. -/
def Packet.bytes (p : Packet) : List UInt8 := [p.b0, p.b1, p.b2]

/-- An overflow bit is set. -/
def Packet.overflows (p : Packet) : Bool := p.b0 &&& 0xC0 != 0

/-! ## Reading a stream -/

/-- The packets in a stream: a byte that cannot be the first one of a packet is dropped, and any other
is one together with the next two. -/
def packets : List UInt8 → List Packet
  | b0 :: b1 :: b2 :: bytes =>
    if validFirst b0 then ⟨b0, b1, b2⟩ :: packets bytes else packets (b1 :: b2 :: bytes)
  | _ => []

/-- The bytes behind the last packet that are still in the ring. -/
def unread : List UInt8 → List UInt8
  | b0 :: b1 :: b2 :: bytes => if validFirst b0 then unread bytes else unread (b1 :: b2 :: bytes)
  | bytes => bytes

theorem packets_append (bytes bytes' : List UInt8) :
    packets (bytes ++ bytes') = packets bytes ++ packets (unread bytes ++ bytes') := by
  fun_induction packets bytes with
  | case1 b0 b1 b2 bytes hfirst ih =>
    rw [unread, if_pos hfirst]
    simp only [List.cons_append, packets, if_pos hfirst, ih]
  | case2 b0 b1 b2 bytes hfirst ih =>
    rw [unread, if_neg hfirst, ← ih]
    simp only [List.cons_append, packets, if_neg hfirst]
  | case3 bytes hshort =>
    rw [unread, List.nil_append]
    exact hshort

theorem unread_append (bytes bytes' : List UInt8) :
    unread (bytes ++ bytes') = unread (unread bytes ++ bytes') := by
  fun_induction unread bytes with
  | case1 b0 b1 b2 bytes hfirst ih => simp only [List.cons_append, unread, if_pos hfirst, ih]
  | case2 b0 b1 b2 bytes hfirst ih =>
    rw [← ih]
    simp only [List.cons_append, unread, if_neg hfirst]
  | case3 bytes hshort => rfl

/-! ## Aligned packets -/

/-- Packets with the third bit of the first byte set. No data byte of a packet that overflows can begin
a packet, except in the last one. -/
structure Aligned (ps : List Packet) : Prop where
  marked : ∀ p ∈ ps, p.b0 &&& 0x08 ≠ 0
  inert : ∀ p ∈ ps.dropLast, p.overflows = true → validFirst p.b1 = false ∧ validFirst p.b2 = false

/-- The bytes of packets, one after the other. -/
def stream (ps : List Packet) : List UInt8 := ps.flatMap Packet.bytes

/-- The first byte of an aligned packet is valid unless an overflow bit is set. -/
theorem validFirst_eq {p : Packet} (h : p.b0 &&& 0x08 ≠ 0) : validFirst p.b0 = !p.overflows := by
  simp [validFirst, Packet.overflows, h, bne]

/-- **An aligned stream is read packet by packet**, and the ones that overflow are dropped. -/
theorem packets_aligned {ps : List Packet} (h : Aligned ps) :
    packets (stream ps) = ps.filter (! ·.overflows) := by
  induction ps with
  | nil => rfl
  | cons p ps ih =>
    have hfirst := validFirst_eq (h.marked p List.mem_cons_self)
    have hrest : Aligned ps := by
      refine ⟨fun q hq => h.marked q (List.mem_cons_of_mem p hq), fun q hq => h.inert q ?_⟩
      cases ps with
      | nil => cases hq
      | cons q' ps => exact List.mem_cons_of_mem p hq
    show packets (p.b0 :: p.b1 :: p.b2 :: stream ps) = _
    rw [packets, hfirst]
    cases hoverflow : p.overflows with
    | false => simp [hoverflow, ih hrest]
    | true =>
      rw [List.filter_cons_of_neg (by simp [hoverflow]), ← ih hrest]
      cases ps with
      | nil => rfl
      | cons q ps =>
        -- both data bytes are dropped as the next packet comes
        obtain ⟨h1, h2⟩ := h.inert p List.mem_cons_self hoverflow
        show packets (p.b1 :: p.b2 :: q.b0 :: q.b1 :: q.b2 :: stream ps) = _
        rw [packets, h1, if_neg Bool.false_ne_true, packets, h2, if_neg Bool.false_ne_true]
        rfl

/-! ## The pointer -/

/-- Nine bits in two's complement. -/
def nineBits (sign : Bool) (low : UInt8) : Int := (BitVec.cons sign low.toBitVec).toInt

/-- The difference to the right. -/
def Packet.dx (p : Packet) : Int := nineBits (p.b0.toNat.testBit 4) p.b1

/-- The difference upwards. -/
def Packet.dy (p : Packet) : Int := nineBits (p.b0.toNat.testBit 5) p.b2

/-- The nearest of the coordinates `0` to `width - 1`. -/
def nearest (width : Nat) (x : Int) : Int := max 0 (min ((width : Int) - 1) x)

/-- Where a packet takes the pointer. -/
def place (W H : Nat) (pos : Int × Int) (p : Packet) : Int × Int :=
  (nearest W (pos.1 + p.dx), nearest H (pos.2 - p.dy))

/-- `(mouse.x, mouse.y)` -/
def Driver.position (d : Driver) : Int × Int := (d.mouse.x, d.mouse.y)

theorem delta_eq (b0 : UInt8) (bit : Nat) (low : UInt8) :
    delta b0 bit low = nineBits (b0.toNat.testBit bit) low := by
  rw [delta, nineBits, BitVec.toInt_eq_msb_cond, BitVec.msb_cons, BitVec.toNat_cons',
    UInt8.toNat_toBitVec]
  cases b0.toNat.testBit bit
  · simp
  · simp [Nat.shiftLeft_eq]
    omega

theorem clamp_eq (width : Nat) (x : Int) : clamp width x = nearest width x := by
  simp only [clamp, nearest]
  split <;> split <;> omega

/-- A packet moves the pointer. -/
theorem packet_position (W H : Nat) (p : Packet) (tsc : UInt64) (d : Driver) :
    (packet W H p.b0 p.b1 p.b2 tsc d).1.position = place W H d.position p := by
  have hplace : place W H d.position p =
      ((d.mouse.moved W H p.b0 p.b1 p.b2).x, (d.mouse.moved W H p.b0 p.b1 p.b2).y) := by
    simp only [MouseState.moved, clamp_eq, delta_eq]
    rfl
  obtain ⟨hx, hy⟩ := packet_moved (W := W) (H := H) p.b0 p.b1 p.b2 tsc d
  rw [hplace, Driver.position, hx, hy]

/-! ## The ring -/

/-- The bytes in the ring that are still to be read. -/
def Pending (d : Driver) : List UInt8 → Prop
  | [] => d.numMousePackets = 0
  | [b0] => d.numMousePackets = 1 ∧ d.mouseBuffer (nextIndex (nextIndex d.mouseBufferIndex)) = b0
  | [b0, b1] => d.numMousePackets = 2 ∧ d.mouseBuffer (nextIndex d.mouseBufferIndex) = b0 ∧
      d.mouseBuffer (nextIndex (nextIndex d.mouseBufferIndex)) = b1
  | _ => False

/-- Nothing has been done with the mouse, except for what the worker stores. -/
structure Untouched (s s' : MouseSys) : Prop where
  posted : s'.posted = s.posted
  oldTsc : s'.driver.oldTsc = s.driver.oldTsc
  mouse : { s'.driver.mouse with oldX := s.driver.mouse.oldX, oldY := s.driver.mouse.oldY } =
    s.driver.mouse

/-- `s'` comes from `s` by reading `bytes` behind what is pending. -/
structure Decoded (W H : Nat) (pending bytes : List UInt8) (s s' : MouseSys) : Prop where
  ring : Pending s'.driver (unread (pending ++ bytes))
  position : s'.driver.position = (packets (pending ++ bytes)).foldl (place W H) s.driver.position
  quiet : packets (pending ++ bytes) = [] → Untouched s s'

theorem nextIndex_three (i : Fin 3) : nextIndex (nextIndex (nextIndex i)) = i := by
  revert i
  decide

theorem nextIndex_ne (i : Fin 3) : nextIndex i ≠ i ∧ nextIndex (nextIndex i) ≠ i := by
  revert i
  decide

section

variable {W H : Nat} {s s₁ s₂ : MouseSys} {pending bytes bytes' : List UInt8}

theorem Untouched.trans (h : Untouched s s₁) (h' : Untouched s₁ s₂) : Untouched s s₂ where
  posted := h'.posted.trans h.posted
  oldTsc := h'.oldTsc.trans h.oldTsc
  mouse := by
    rw [← h.mouse, ← h'.mouse]

theorem Pending.short (h : Pending s.driver pending) : packets pending = [] ∧ unread pending = pending := by
  match pending, h with
  | [], _ => exact ⟨rfl, rfl⟩
  | [_], _ => exact ⟨rfl, rfl⟩
  | [_, _], _ => exact ⟨rfl, rfl⟩

theorem Decoded.trans (h : Decoded W H pending bytes s s₁)
    (h' : Decoded W H (unread (pending ++ bytes)) bytes' s₁ s₂) :
    Decoded W H pending (bytes ++ bytes') s s₂ where
  ring := by
    rw [← List.append_assoc, unread_append]
    exact h'.ring
  position := by
    rw [← List.append_assoc, packets_append, List.foldl_append, ← h.position]
    exact h'.position
  quiet hnone := by
    rw [← List.append_assoc, packets_append, List.append_eq_nil_iff] at hnone
    exact (h.quiet hnone.1).trans (h'.quiet hnone.2)

/-- A byte goes into the ring. -/
theorem byte_decoded (data : UInt8) (tsc : UInt64) (h : Pending s.driver pending) :
    Decoded W H pending [data] s ⟨(mousePacket W H data tsc s.driver).1,
      s.posted ++ (mousePacket W H data tsc s.driver).2⟩ := by
  obtain ⟨hne, hne'⟩ := nextIndex_ne s.driver.mouseBufferIndex
  have hthree := nextIndex_three s.driver.mouseBufferIndex
  rw [mousePacket]
  rcases pending with _ | ⟨b0, _ | ⟨b1, _ | ⟨b2, rest⟩⟩⟩
  case nil =>
    have hcount : s.driver.numMousePackets = 0 := h
    simp only [hcount, Nat.reduceAdd, ge_iff_le, Nat.reduceLeDiff, if_false]
    refine ⟨⟨rfl, ?_⟩, rfl, fun _ => ⟨List.append_nil _, rfl, rfl⟩⟩
    simp [hthree]
  case cons.nil =>
    obtain ⟨hnum, hb0⟩ := h
    simp only [hnum, Nat.reduceAdd, ge_iff_le, Nat.reduceLeDiff, if_false]
    refine ⟨⟨rfl, ?_, ?_⟩, rfl, fun _ => ⟨List.append_nil _, rfl, rfl⟩⟩
    · simpa [hne'] using hb0
    · simp [hthree]
  case cons.cons.nil =>
    obtain ⟨hnum, hb0, hb1⟩ := h
    simp only [hnum, Nat.reduceAdd, ge_iff_le, Nat.le_refl, if_true, Function.update_of_ne hne,
      Function.update_of_ne hne', hb0, hb1]
    cases hfirst : validFirst b0 with
    | true =>
      simp only [if_true]
      have hread : packets ([b0, b1] ++ [data]) = [⟨b0, b1, data⟩] := by
        simp [packets, hfirst]
      refine ⟨?_, ?_, ?_⟩
      · simp [unread, hfirst, Pending]
      · rw [hread]
        exact packet_position W H ⟨b0, b1, data⟩ tsc _
      · intro hnone
        rw [hread] at hnone
        cases hnone
    -- the first byte is dropped, and the two others stay
    | false =>
      have hread : packets ([b0, b1] ++ [data]) = [] := by simp [packets, hfirst]
      have hleft : unread ([b0, b1] ++ [data]) = [b1, data] := by simp [unread, hfirst]
      simp only [Bool.false_eq_true, if_false]
      refine ⟨?_, ?_, fun _ => ⟨List.append_nil _, rfl, rfl⟩⟩
      · rw [hleft]
        refine ⟨rfl, ?_, ?_⟩
        · simpa [hne'] using hb1
        · simp [hthree]
      · rw [hread]
        rfl
  case cons.cons.cons => exact h.elim

end

/-! ## Runs -/

/-- The bytes the mouse sends. -/
def sent : List MouseOp → List UInt8
  | [] => []
  | .byte data _ :: ops => data :: sent ops
  | _ :: ops => sent ops

theorem sent_append (ops ops' : List MouseOp) : sent (ops ++ ops') = sent ops ++ sent ops' := by
  induction ops with
  | nil => rfl
  | cons op ops ih => cases op <;> simp [sent, ih]

section

variable {W H : Nat} {s : MouseSys} {pending : List UInt8}

/-- What the worker stores has nothing to do with the packets. -/
theorem store_decoded (h : Pending s.driver pending) (x y : Int) :
    Decoded W H pending [] s { s with driver.mouse := { s.driver.mouse with oldX := x, oldY := y } } := by
  obtain ⟨hnone, hkept⟩ := h.short
  refine ⟨?_, ?_, fun _ => ⟨rfl, rfl, rfl⟩⟩
  · rw [List.append_nil, hkept]
    exact h
  · rw [List.append_nil, hnone]
    rfl

/-- Every run decodes what is sent. -/
theorem run_decoded (h : Pending s.driver pending) (ops : List MouseOp) :
    ∃ s', (ps2 W H).exec s ops = some s' ∧ Decoded W H pending (sent ops) s s' := by
  induction ops generalizing s pending with
  | nil => exact ⟨s, rfl, store_decoded h s.driver.mouse.oldX s.driver.mouse.oldY⟩
  | cons op ops ih =>
    have hstep : ∃ s₁, (ps2 W H).step s op = some s₁ ∧ Decoded W H pending (sent [op]) s s₁ := by
      cases op with
      | byte data tsc => exact ⟨_, rfl, byte_decoded data tsc h⟩
      | storeOldX => exact ⟨_, rfl, store_decoded h s.driver.mouse.x s.driver.mouse.oldY⟩
      | storeOldY => exact ⟨_, rfl, store_decoded h s.driver.mouse.oldX s.driver.mouse.y⟩
    obtain ⟨s₁, hone, hdecoded⟩ := hstep
    obtain ⟨s', hrun, hrest⟩ := ih hdecoded.ring
    refine ⟨s', ?_, ?_⟩
    · rw [Machine.exec_cons, hone]
      exact hrun
    · rw [← List.singleton_append, sent_append]
      exact hdecoded.trans hrest

end

/-- **Packets are taken or dropped whole.** From an empty ring the pointer is where the packets read
from the stream take it, whatever the stream is. If the stream is aligned these are the packets without
an overflow bit; and one that has an overflow bit leaves the mouse alone. -/
theorem packets_whole {W H : Nat} {s : MouseSys} (hempty : s.driver.numMousePackets = 0)
    (ops : List MouseOp) :
    ∃ s', (ps2 W H).exec s ops = some s' ∧
      s'.driver.position = (packets (sent ops)).foldl (place W H) s.driver.position ∧
      ∀ ps, sent ops = stream ps → Aligned ps →
        s'.driver.position = (ps.filter (! ·.overflows)).foldl (place W H) s.driver.position ∧
        ∀ ops₁ ops₂ ps₁ p s₁, ops = ops₁ ++ ops₂ → ps = ps₁ ++ [p] → sent ops₁ = stream ps₁ →
          p.overflows = true → (ps2 W H).exec s ops₁ = some s₁ → Untouched s₁ s' := by
  have hpending : Pending s.driver [] := hempty
  obtain ⟨s', hrun, hdecoded⟩ := run_decoded hpending ops
  refine ⟨s', hrun, hdecoded.position, ?_⟩
  intro ps hps haligned
  have hread : packets (sent ops) = ps.filter (! ·.overflows) := by
    rw [hps, packets_aligned haligned]
  refine ⟨by rw [← hread]; exact hdecoded.position, ?_⟩
  rintro ops₁ ops₂ ps₁ p s₁ rfl rfl hps₁ hoverflow hrun₁
  obtain ⟨s₁', hrun₁', hdecoded₁⟩ := run_decoded hpending ops₁
  cases hrun₁.symm.trans hrun₁'
  obtain ⟨s₂, hrun₂, hdecoded₂⟩ := run_decoded hdecoded₁.ring ops₂
  rw [Machine.exec_append, hrun₁] at hrun
  cases hrun.symm.trans hrun₂
  -- what is read from the second part is the rest of what is read from both
  apply hdecoded₂.quiet
  have haligned₁ : Aligned ps₁ := by
    refine ⟨fun q hq => haligned.marked q (List.mem_append_left _ hq), fun q hq => ?_⟩
    exact haligned.inert q (by simpa using List.dropLast_subset _ hq)
  have hall := packets_append (sent ops₁) (sent ops₂)
  rw [← sent_append, hread, hps₁, packets_aligned haligned₁, List.filter_append,
    List.filter_cons_of_neg (by simp [hoverflow]), List.filter_nil] at hall
  rw [List.nil_append, hps₁]
  exact (List.append_cancel_left hall).symm

/-- A packet that moves the pointer, one that overflows, and one that moves it back. -/
theorem packets_whole_example :
    ∃ s', (ps2 800 600).exec ⟨Driver.start 200 150, []⟩ [.byte 0x08 1, .byte 5 2, .byte 7 3, .byte 0x48 4,
        .byte 0 5, .byte 0 6, .byte 0x38 7, .byte 0xFB 8, .byte 0xF9 9] = some s' ∧
      s'.driver.position = (200, 150) := by
  obtain ⟨s', hrun, -, hwhole⟩ := packets_whole (W := 800) (H := 600)
    (s := ⟨Driver.start 200 150, []⟩) rfl [.byte 0x08 1, .byte 5 2, .byte 7 3, .byte 0x48 4, .byte 0 5,
      .byte 0 6, .byte 0x38 7, .byte 0xFB 8, .byte 0xF9 9]
  have hposition := (hwhole [⟨0x08, 5, 7⟩, ⟨0x48, 0, 0⟩, ⟨0x38, 0xFB, 0xF9⟩] rfl
    ⟨by decide, by decide⟩).1
  exact ⟨s', hrun, hposition.trans (by decide)⟩

/-- The data of a packet that overflows are read as the beginning of a packet: the pointer moves. -/
theorem packet_misread : ∃ s', (ps2 800 600).exec ⟨Driver.start 200 150, []⟩ [.byte 0x48 1, .byte 0x08 2,
      .byte 5 3, .byte 0x08 4, .byte 0 5, .byte 0 6] = some s' ∧
    sent [.byte 0x48 1, .byte 0x08 2, .byte 5 3, .byte 0x08 4, .byte 0 5, .byte 0 6] =
      stream [⟨0x48, 0x08, 5⟩, ⟨0x08, 0, 0⟩] ∧
    (∀ p ∈ [(⟨0x48, 0x08, 5⟩ : Packet), ⟨0x08, 0, 0⟩], p.b0 &&& 0x08 ≠ 0) ∧
    s'.driver.position ≠ ([(⟨0x48, 0x08, 5⟩ : Packet), ⟨0x08, 0, 0⟩].filter (! ·.overflows)).foldl
      (place 800 600) (200, 150) :=
  ⟨_, rfl, rfl, by decide, by decide⟩

end Shipwreck.Input
