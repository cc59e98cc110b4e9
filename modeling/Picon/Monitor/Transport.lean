import Picon.Lib.Cursor
import Picon.Lib.PacketPipe
import Picon.Shared

/-!
# The loading pipe

`WRITE_LOADING_PACKET` and `READ_LOADING_PACKET` over a pipe opened with
`O_DIRECT`: an event, a size and a payload travel as three writes, and are read
back with three reads whose results are compared with exact lengths.
-/

namespace Picon.Monitor

open Lib (PacketMode Pipe le32 readLe32)

/-- A `loading_packet` to be written. Its size is the length of its value. -/
structure OutgoingPacket where
  event : UInt32
  value : Bytes
  size_lt : value.length < 2 ^ 32

/-- What one `READ_LOADING_PACKET` yields. -/
inductive Received where
  | packet (event size : Nat) (value : Bytes)
  | failed (err : Nat)
  deriving DecidableEq, Repr

section Macros

variable (mode : PacketMode UInt8)

/-- `WRITE_LOADING_PACKET`, every write accepted in full. -/
def writeLoadingPacket (pipe : Pipe UInt8) (src : OutgoingPacket) : Pipe UInt8 :=
  let pipe := mode.write pipe (le32 src.event.toNat)
  let pipe := mode.write pipe (le32 src.value.length)
  if src.value.length ≠ 0 then mode.write pipe src.value else pipe

/-- `READ_LOADING_PACKET`, the allocation succeeding; `none` blocks. -/
def readLoadingPacket (pipe : Pipe UInt8) : Option (Received × Pipe UInt8) :=
  match pipe.read 4 with
  | none => none
  | some (eventBytes, pipe) =>
    match readLe32 eventBytes with
    | none => some (.failed 1, pipe)
    | some event =>
      match pipe.read 4 with
      | none => none
      | some (sizeBytes, pipe) =>
        match readLe32 sizeBytes with
        | none => some (.failed 2, pipe)
        | some size =>
          if size = 0 then some (.packet event 0 [], pipe)
          else
            match pipe.read size with
            | none => none
            | some (value, pipe) =>
              if value.length ≠ size then some (.failed 4, pipe)
              else some (.packet event size value, pipe)

/-- Successive writes on an empty pipe. -/
def sendAll (pkts : List OutgoingPacket) : Pipe UInt8 := pkts.foldl (writeLoadingPacket mode) []

/-- `n` successive reads, whatever each of them yields; `none` if one blocks. -/
def receiveAll : Nat → Pipe UInt8 → Option (List Received)
  | 0, _ => some []
  | n + 1, pipe =>
    match readLoadingPacket pipe with
    | none => none
    | some (received, pipe) => (receiveAll n pipe).map (received :: ·)

end Macros

/-- The same event, size and payload, without error. -/
def OutgoingPacket.intact (pkt : OutgoingPacket) : Received :=
  .packet pkt.event.toNat pkt.value.length pkt.value

/-- The reader gets back every packet as it was written. -/
def RoundTrips (mode : PacketMode UInt8) (pkts : List OutgoingPacket) : Prop :=
  receiveAll pkts.length (sendAll mode pkts) = some (pkts.map OutgoingPacket.intact)

section Framing

variable {mode : PacketMode UInt8}

/-- The packets that carry one loading packet. -/
def OutgoingPacket.frames (mode : PacketMode UInt8) (pkt : OutgoingPacket) : Pipe UInt8 :=
  le32 pkt.event.toNat :: le32 pkt.value.length ::
    if pkt.value.length ≠ 0 then mode.split pkt.value else []

theorem writeLoadingPacket_eq (hlimit : 4 ≤ mode.limit) (pipe : Pipe UInt8)
    (src : OutgoingPacket) : writeLoadingPacket mode pipe src = pipe ++ src.frames mode := by
  have hword : ∀ (pipe : Pipe UInt8) (n : Nat), mode.write pipe (le32 n) = pipe ++ [le32 n] :=
    fun pipe n => mode.write_small pipe (by simp [le32]) (by simpa using hlimit)
  simp only [writeLoadingPacket, OutgoingPacket.frames, hword]
  split <;> simp [PacketMode.write]

theorem sendAll_eq (hlimit : 4 ≤ mode.limit) (pkts : List OutgoingPacket) :
    sendAll mode pkts = pkts.flatMap (OutgoingPacket.frames mode) := by
  have hfold : ∀ (pkts : List OutgoingPacket) (pipe : Pipe UInt8),
      pkts.foldl (writeLoadingPacket mode) pipe =
        pipe ++ pkts.flatMap (OutgoingPacket.frames mode) := by
    intro pkts
    induction pkts with
    | nil => intro pipe; simp
    | cons pkt pkts ih =>
      intro pipe
      rw [List.foldl_cons, writeLoadingPacket_eq hlimit, ih, List.flatMap_cons, List.append_assoc]
  exact hfold pkts []

/-- Event and size always arrive; only the payload can go wrong. -/
theorem readLoadingPacket_frames (pkt : OutgoingPacket) (rest : Pipe UInt8) :
    readLoadingPacket (pkt.frames mode ++ rest) =
      if pkt.value.length = 0 then some (pkt.intact, rest)
      else
        match Pipe.read pkt.value.length (mode.split pkt.value ++ rest) with
        | none => none
        | some (value, pipe) =>
          if value.length ≠ pkt.value.length then some (.failed 4, pipe)
          else some (.packet pkt.event.toNat pkt.value.length value, pipe) := by
  have hevent : readLe32 (le32 pkt.event.toNat) = some pkt.event.toNat := by
    simpa using Lib.readLe32_le32 pkt.event.toNat_lt []
  have hsize : readLe32 (le32 pkt.value.length) = some pkt.value.length := by
    simpa using Lib.readLe32_le32 pkt.size_lt []
  have htake : ∀ n, (le32 n).take 4 = le32 n := fun n => List.take_of_length_le (by simp)
  simp only [readLoadingPacket, OutgoingPacket.frames, List.cons_append, Pipe.read, htake, hevent,
    hsize]
  by_cases hzero : pkt.value.length = 0
  · have hvalue : pkt.value = [] := List.eq_nil_of_length_eq_zero hzero
    simp [OutgoingPacket.intact, hvalue]
  · simp [hzero]

theorem readLoadingPacket_small (pkt : OutgoingPacket) (hle : pkt.value.length ≤ mode.limit)
    (rest : Pipe UInt8) :
    readLoadingPacket (pkt.frames mode ++ rest) = some (pkt.intact, rest) := by
  rw [readLoadingPacket_frames]
  split
  · rfl
  · rename_i hzero
    have hne : pkt.value ≠ [] := fun hc => hzero (by simp [hc])
    simp [mode.split_small pkt.value hne hle, Pipe.read, OutgoingPacket.intact]

theorem readLoadingPacket_large (pkt : OutgoingPacket) (hgt : mode.limit < pkt.value.length)
    (rest : Pipe UInt8) :
    ∃ rest', readLoadingPacket (pkt.frames mode ++ rest) = some (.failed 4, rest') := by
  obtain ⟨p, tail, hsplit, hshort⟩ := mode.split_large hgt
  refine ⟨tail ++ rest, ?_⟩
  rw [readLoadingPacket_frames, if_neg (by omega), hsplit]
  have htake : (p.take pkt.value.length).length ≠ pkt.value.length := by
    rw [List.length_take]
    omega
  simp only [List.cons_append, Pipe.read, if_pos htake]

/-- The reads that follow the packets of `pkts`, whatever comes after them. -/
theorem receiveAll_frames (pkts : List OutgoingPacket) (rest : Pipe UInt8) :
    receiveAll pkts.length (pkts.flatMap (OutgoingPacket.frames mode) ++ rest) =
        some (pkts.map OutgoingPacket.intact) ↔
      ∀ pkt ∈ pkts, pkt.value.length ≤ mode.limit := by
  induction pkts with
  | nil => simp [receiveAll]
  | cons pkt pkts ih =>
    rw [List.flatMap_cons, List.append_assoc, List.length_cons, receiveAll, List.forall_mem_cons]
    rcases Nat.lt_or_ge mode.limit pkt.value.length with hgt | hle
    · obtain ⟨rest', hread⟩ := readLoadingPacket_large pkt hgt
        (pkts.flatMap (OutgoingPacket.frames mode) ++ rest)
      rw [hread]
      refine iff_of_false ?_ (fun hc => by omega)
      intro hc
      obtain ⟨tail, _, heq⟩ := Option.map_eq_some_iff.mp hc
      cases (List.cons.inj heq).1
    · rw [readLoadingPacket_small pkt hle]
      simp only [List.map_cons]
      rw [and_iff_right hle, ← ih]
      simp

theorem roundTrips_iff (hlimit : 4 ≤ mode.limit) (pkts : List OutgoingPacket) :
    RoundTrips mode pkts ↔ ∀ pkt ∈ pkts, pkt.value.length ≤ mode.limit := by
  unfold RoundTrips
  rw [sendAll_eq hlimit]
  simpa using receiveAll_frames pkts []

end Framing

/-- `PIPE_BUF`. -/
def pipeBuf : Nat := 4096

/-- Loading packets survive the pipe exactly when no payload exceeds
`PIPE_BUF`, however the kernel cuts a longer write. -/
theorem loading_packets_round_trip_iff (mode : PacketMode UInt8) (hmode : mode.limit = pipeBuf)
    (pkts : List OutgoingPacket) :
    RoundTrips mode pkts ↔ ∀ pkt ∈ pkts, pkt.value.length ≤ pipeBuf := by
  rw [roundTrips_iff (by rw [hmode]; decide), hmode]

/-- A sequence whose payloads are as long as they may be, and shorter. -/
def fullPackets : List OutgoingPacket :=
  [⟨0, [2, 0, 0, 0, 0], by decide⟩,
    ⟨1, List.replicate 4096 7, by rw [List.length_replicate]; decide⟩, ⟨5, [], by decide⟩]

theorem loading_packets_round_trip_fullPackets :
    RoundTrips (.greedily pipeBuf (by decide)) fullPackets := by
  apply (loading_packets_round_trip_iff (.greedily pipeBuf (by decide)) rfl fullPackets).mpr
  intro pkt hpkt
  simp only [fullPackets, List.mem_cons, List.not_mem_nil, or_false] at hpkt
  rcases hpkt with rfl | rfl | rfl
  · decide
  · exact Nat.le_of_eq List.length_replicate
  · decide

/-- A function section of one byte more than fits. -/
def oversized : OutgoingPacket := ⟨1, List.replicate 4097 0, by rw [List.length_replicate]; decide⟩

theorem oversized_packet_is_not_received :
    ¬ RoundTrips (.greedily pipeBuf (by decide)) [oversized] := by
  rw [roundTrips_iff (by decide)]
  intro h
  have hle : (List.replicate 4097 (0 : UInt8)).length ≤ 4096 := h oversized List.mem_cons_self
  rw [List.length_replicate] at hle
  omega

end Picon.Monitor
