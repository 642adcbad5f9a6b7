import Osxie.Lib.Machine

/-!
# Audio conversion

`AudioConverter::fillComplex` fills the caller's buffers with the packets of an encoder, which is fed with samples from a
resampler, that with frames from a decoder, and that with what the caller's input callback returns. What is left over of each is
kept for the next call.

What the callback, the codecs and the resampler return is part of the step. What went through them is recorded, and the stream
is continuous if nothing is lost, repeated or reordered between one of them and the next (`ContinuousStream`).

The encoder's packet is received into the input packet, `m_avpkt`. So nothing is ever copied to the caller, and a packet of the
encoder is sent to the decoder in the next round.
-/

namespace Osxie.CoreAudio

open List Option Nat

abbrev Bytes := List UInt8

def encoderFrameSamples : Nat := 1024

/-- The members of `m_destinationFormat` that are read. -/
structure StreamDescription where
  mBitsPerChannel : Nat
  mChannelsPerFrame : Nat

/-- The bytes of one sample of every channel. -/
def StreamDescription.bytesPerFrame (format : StreamDescription) : Nat := format.mChannelsPerFrame * (format.mBitsPerChannel / 8)

/-- The bytes that the encoder is given at a time. -/
def StreamDescription.requiredBytes (format : StreamDescription) : Nat := format.bytesPerFrame * encoderFrameSamples

/-- What a function of FFmpeg returns: `again` is `AVERROR(EAGAIN)`, or that there are no samples. -/
inductive AvResult (α : Type) where
  | ok (value : α)
  | again
  | error
deriving DecidableEq

/-- Who has filled a packet. -/
inductive Origin where
  | input
  | encoder
deriving DecidableEq

/-- A packet. The code does not look at the origin. -/
structure AvPacket where
  data : Bytes
  origin : Origin
deriving DecidableEq

/-- `AudioBuffer`: the bytes at `mData`, of which the first `mDataByteSize` count. -/
structure AudioBuffer where
  mDataByteSize : Nat
  mData : Bytes
deriving DecidableEq

/-- The bytes that count. -/
def AudioBuffer.bytes (buffer : AudioBuffer) : Bytes := buffer.mData.take buffer.mDataByteSize

inductive OSStatus where
  | noErr
  | ioErr
deriving DecidableEq

/-! ## `ConsumableBuffer` -/

namespace ConsumableBuffer

def push (data mem : Bytes) : Bytes := data ++ mem

def consume (data : Bytes) (bytes : Nat) : Except String Bytes :=
  if bytes > data.length then .error "ConsumableBuffer::consume() bytes > size()" else .ok (data.drop bytes)

theorem consume_of_le {data : Bytes} {bytes : Nat} (h : bytes ≤ data.length) : consume data bytes = .ok (data.drop bytes) :=
  if_neg (not_lt.2 h)

end ConsumableBuffer

/-! ## The state -/

structure AudioConverter where
  avpkt : AvPacket
  avpktOut : Bytes
  avpktOutUsed : Nat
  resampler : Bool
  encoderInitialized : Bool
  audioFramePrebuf : Bytes
deriving DecidableEq

/-- The buffer that is being filled: its size as it was, what has been copied to it, and what was there. -/
structure Filling where
  origSize : Nat
  written : Bytes
  mData : Bytes
deriving DecidableEq

def Filling.buffer (f : Filling) : AudioBuffer := ⟨f.written.length, f.written ++ f.mData.drop f.written.length⟩

/-- A call of `fillComplex`: the buffers that are done, the one at hand, those to come, and the frame of the decoder. -/
structure FillCall (F : Type) where
  filled : List AudioBuffer
  current : Option Filling
  todo : List AudioBuffer
  srcaudio : Option F
deriving DecidableEq

/-- The sizes of the buffers that are not done. -/
def FillCall.sizes {F : Type} (call : FillCall F) : List Nat :=
  (call.current.map Filling.origSize).toList ++ call.todo.map AudioBuffer.mDataByteSize

/-- What went through: the non-empty buffers of the input callback, the packets that the decoder has accepted and its frames, the
frames that the resampler has accepted and its bytes, the samples that the encoder has accepted and its packets, and the calls that
have returned, with the buffers as they left them. -/
structure Streams (F : Type) where
  inputs : List Bytes
  sent : List AvPacket
  decoded : List F
  resampled : List F
  converted : Bytes
  encoded : List Bytes
  packets : List Bytes
  calls : List (OSStatus × List AudioBuffer)
deriving DecidableEq

def Streams.delivered {F : Type} (log : Streams F) : Bytes := log.calls.flatMap fun call => call.2.flatMap AudioBuffer.bytes

/-- What comes next. -/
inductive Place where
  | idle
  /-- the loops of `fillComplex` -/
  | fill
  | feedEncoder
  | initEncoder
  /-- the loop that takes samples from the resampler -/
  | pull
  | encode
  | fillFrame
  | sendFrame
  | receivePacket
  | feedDecoder
  | sendPacket
  | receiveFrame
  | setupResampler
  | convert
deriving DecidableEq

structure Conversion (F : Type) where
  converter : AudioConverter
  place : Place
  call : FillCall F
  log : Streams F
deriving DecidableEq

/-- Who moves, with what it returns. -/
inductive ConversionAction (F : Type) where
  | fillComplex (buffers : List AudioBuffer)
  | advance
  | initEncoder (success : Bool)
  /-- `swr_get_out_samples` and `swr_convert` -/
  | pull (result : AvResult Bytes)
  | fillFrame (success : Bool)
  | sendFrame (result : AvResult Unit)
  | receivePacket (result : AvResult Bytes)
  | dataProc (result : Option Bytes)
  | sendPacket (result : AvResult Unit)
  | receiveFrame (result : AvResult F)
  | setupResampler (success : Bool)
  /-- `swr_convert` of a frame -/
  | convert (success : Bool)
deriving DecidableEq

namespace Conversion

variable {F : Type} (format : StreamDescription)

def init : Conversion F where
  converter := ⟨⟨[], .input⟩, [], 0, false, false, []⟩
  place := .idle
  call := ⟨[], none, [], none⟩
  log := ⟨[], [], [], [], [], [], [], []⟩

/-! ## `fillComplex` -/

variable (s : Conversion F)

def goto (place : Place) : Conversion F := { s with place := place }

/-- The call returns, at its end, at `goto end` or after an exception. -/
def finish (status : OSStatus) : Conversion F :=
  { s with
    place := .idle
    call := ⟨[], none, [], none⟩
    log := { s.log with
      calls := s.log.calls ++ [(status, s.call.filled ++ (s.call.current.map Filling.buffer).toList ++ s.call.todo)] } }

/-- The output of the previous conversion is copied. After one round of the inner loop the packet is used up or the buffer full. -/
def copyOut (f : Filling) : Conversion F :=
  let tocopy := min (s.converter.avpktOut.length - s.converter.avpktOutUsed) (f.origSize - f.written.length)
  let f := { f with written := f.written ++ (s.converter.avpktOut.drop s.converter.avpktOutUsed).take tocopy }
  let used := s.converter.avpktOutUsed + tocopy
  { s with
    call := { s.call with current := some f }
    converter :=
      if s.converter.avpktOut.length ≤ used then { s.converter with avpktOutUsed := 0, avpktOut := [] }
      else { s.converter with avpktOutUsed := used } }

/-- The loops of `fillComplex`. -/
def fill : Conversion F :=
  match s.call.current with
  | none =>
    match s.call.todo with
    | [] => s.finish .noErr
    | buffer :: todo =>
      { s with call := { s.call with current := some ⟨buffer.mDataByteSize, [], buffer.mData⟩, todo := todo } }
  | some f =>
    if f.written.length < f.origSize then
      if s.converter.avpktOutUsed < s.converter.avpktOut.length then s.copyOut f else s.goto .feedEncoder
    else { s with call := { s.call with filled := s.call.filled ++ [f.buffer], current := none } }

/-! ## `feedEncoder` -/

/-- The frame that was in the buffer before the encoder is consumed, and the converter goes on from there. -/
def consumeFrame (next : Conversion F → Conversion F) : Conversion F :=
  match ConsumableBuffer.consume s.converter.audioFramePrebuf format.requiredBytes with
  | .error _ => s.finish .ioErr
  | .ok data => next { s with converter := { s.converter with audioFramePrebuf := data } }

/-- An exception in the `try` block: the frame is consumed, and the exception goes on. -/
def dropFrame : Conversion F := s.consumeFrame format (·.finish .ioErr)

/-- The next statement, where it does not call anybody. A result of `feedEncoder` that is false leads to `feedDecoder`. -/
def advance : Option (Conversion F) :=
  match s.place with
  | .fill => some s.fill
  | .feedEncoder =>
    some (s.goto (if ¬s.converter.resampler then .feedDecoder else if ¬s.converter.encoderInitialized then .initEncoder else .pull))
  | .pull => if format.requiredBytes ≤ s.converter.audioFramePrebuf.length then some (s.goto .encode) else none
  | .encode =>
    some ({ s with converter := { s.converter with avpktOut := [], avpktOutUsed := 0 } }.goto
      (if format.requiredBytes ≤ s.converter.audioFramePrebuf.length then .fillFrame else .feedDecoder))
  | .feedDecoder => if s.converter.avpkt.data = [] then none else some (s.goto .sendPacket)
  | _ => none

variable (success : Bool)

/-- `avcodec_open2` and `allocateBuffers`. -/
def initEncoder : Conversion F :=
  if success then { s with converter := { s.converter with encoderInitialized := true } }.goto .pull else s.finish .ioErr

/-- Samples of the resampler are added to the buffer before the encoder. -/
def pull : AvResult Bytes → Conversion F
  | .ok output =>
    { s with
      converter := { s.converter with audioFramePrebuf := ConsumableBuffer.push s.converter.audioFramePrebuf output }
      log := { s.log with converted := s.log.converted ++ output } }
  | .again => s.goto .encode
  | .error => s.finish .ioErr

/-- `avcodec_fill_audio_frame`. -/
def fillFrame : Conversion F :=
  if success then s.goto .sendFrame else s.dropFrame format

/-- `avcodec_send_frame`. -/
def sendFrame : AvResult Unit → Conversion F
  | .ok _ =>
    { s with
      log := { s.log with encoded := s.log.encoded ++ [s.converter.audioFramePrebuf.take format.requiredBytes] } }.goto
        .receivePacket
  | .again | .error => s.dropFrame format

/-- `avcodec_receive_packet(m_encoder, &m_avpkt)`, which clears the packet first. -/
def receivePacket : AvResult Bytes → Conversion F
  | .ok packet =>
    { s with
      converter := { s.converter with avpkt := ⟨packet, .encoder⟩ }
      log := { s.log with packets := s.log.packets ++ [packet] } }.consumeFrame format (·.goto .fill)
  | .again =>
    { s with converter := { s.converter with avpkt := ⟨[], .encoder⟩ } }.consumeFrame format (·.goto .feedDecoder)
  | .error => { s with converter := { s.converter with avpkt := ⟨[], .encoder⟩ } }.dropFrame format

/-! ## `feedDecoder` -/

/-- `feedInput`. An error, and an empty buffer, end the call. -/
def dataProc : Option Bytes → Conversion F
  | none => s.finish .noErr
  | some data =>
    let s := { s with converter := { s.converter with avpkt := ⟨data, .input⟩ } }
    if data = [] then s.finish .noErr
    else { s with log := { s.log with inputs := s.log.inputs ++ [data] } }.goto .sendPacket

/-- `avcodec_send_packet`. -/
def sendPacket : AvResult Unit → Conversion F
  | .ok _ =>
    { s with
      converter := { s.converter with avpkt := { s.converter.avpkt with data := [] } }
      log := { s.log with sent := s.log.sent ++ [s.converter.avpkt] } }.goto .receiveFrame
  | .again => s.goto .receiveFrame
  | .error => s.finish .ioErr

/-- `avcodec_receive_frame`. -/
def receiveFrame : AvResult F → Conversion F
  | .ok frame =>
    { s with
      call := { s.call with srcaudio := some frame }
      log := { s.log with decoded := s.log.decoded ++ [frame] } }.goto
        (if s.converter.resampler then .convert else .setupResampler)
  | .again => s.goto .feedDecoder
  | .error => s.finish .ioErr

/-- `setupResampler`. The resampler has been allocated when its initialization fails. -/
def setupResampler : Conversion F :=
  let s := { s with converter := { s.converter with resampler := true } }
  if success then s.goto .convert else s.finish .ioErr

/-- `swr_convert` of the frame. A result of `feedDecoder` that is true leads to `feedEncoder`. -/
def convert : Conversion F :=
  if success then
    { s with
      call := { s.call with srcaudio := none }
      log := { s.log with resampled := s.log.resampled ++ s.call.srcaudio.toList } }.goto .feedEncoder
  else s.finish .ioErr

/-! ## The machine -/

def step : ConversionAction F → Option (Conversion F)
  | .fillComplex buffers => if s.place = .idle then some { s with place := .fill, call := ⟨[], none, buffers, none⟩ } else none
  | .advance => s.advance format
  | .initEncoder success => if s.place = .initEncoder then some (s.initEncoder success) else none
  | .pull result =>
    if s.place = .pull ∧ s.converter.audioFramePrebuf.length < format.requiredBytes then some (s.pull result) else none
  | .fillFrame success => if s.place = .fillFrame then some (s.fillFrame format success) else none
  | .sendFrame result => if s.place = .sendFrame then some (s.sendFrame format result) else none
  | .receivePacket result => if s.place = .receivePacket then some (s.receivePacket format result) else none
  | .dataProc result => if s.place = .feedDecoder ∧ s.converter.avpkt.data = [] then some (s.dataProc result) else none
  | .sendPacket result => if s.place = .sendPacket then some (s.sendPacket result) else none
  | .receiveFrame result => if s.place = .receiveFrame then some (s.receiveFrame result) else none
  | .setupResampler success => if s.place = .setupResampler then some (s.setupResampler success) else none
  | .convert success => if s.place = .convert then some (s.convert success) else none

/-- Any calls of `fillComplex`, with any behaviour of the callback, the codecs and the resampler. -/
def machine (F : Type) : Machine (Conversion F) (ConversionAction F) where
  init := init
  step := step format

/-! ## A continuous stream -/

/-- The input packet, if it is one that the decoder has not accepted yet. -/
def waiting : List AvPacket :=
  if s.converter.avpkt.data = [] ∨ s.converter.avpkt.origin = .encoder then [] else [s.converter.avpkt]

/-- The samples that the encoder has not accepted yet. -/
def unsent : Bytes :=
  if s.place = .receivePacket then s.converter.audioFramePrebuf.drop format.requiredBytes else s.converter.audioFramePrebuf

/-- Every non-empty buffer of the input callback is sent to the decoder once, and nothing else is; every frame of the decoder goes
to the resampler, and its bytes to the encoder; and the bytes delivered over all calls are the first ones of the packets that the
encoder has produced. -/
structure ContinuousStream (s : Conversion F) : Prop where
  sent : s.log.sent ++ s.waiting = s.log.inputs.map fun data => ⟨data, .input⟩
  resampled : s.log.resampled ++ s.call.srcaudio.toList = s.log.decoded
  encoded : s.log.encoded.flatten ++ s.unsent format = s.log.converted
  delivered : s.log.delivered <+: s.log.packets.flatten

/-- At most one buffer of a call has room; the packet that is sent to the decoder is not one of the encoder, and no input waits to
be sent when a packet of the encoder is received; the resampler and the encoder accept what they are given. -/
def Keeps : ConversionAction F → Prop
  | .fillComplex buffers => (buffers.map AudioBuffer.mDataByteSize).countP (0 < ·) ≤ 1
  | .sendPacket _ => s.converter.avpkt.origin = .input
  | .receivePacket _ => s.converter.avpkt.data = [] ∨ s.converter.avpkt.origin = .encoder
  | .fillFrame success | .setupResampler success | .convert success => success = true
  | .sendFrame result => result = .ok ()
  | _ => True

instance (a : ConversionAction F) : Decidable (s.Keeps a) := by
  cases a <;> unfold Keeps <;> infer_instance

/-! ## The caller's buffers -/

variable {format} {s s' : Conversion F}

/-- The converter is past the loops of `fillComplex`. -/
def Place.inside : Place → Bool
  | .idle | .fill => false
  | _ => true

/-- The output packet is empty, so nothing has been copied. Only the buffer at hand or one of those to come has room, and where the
converter is past the loops, it is the one at hand. -/
structure Buffers (s : Conversion F) : Prop where
  out : s.converter.avpktOut = []
  written : ∀ f, s.call.current = some f → f.written = []
  filled : ∀ b ∈ s.call.filled, b.mDataByteSize = 0
  room : s.call.sizes.countP (0 < ·) ≤ 1
  delivered : s.log.delivered = []
  inside : Place.inside s.place = true → ∃ f, s.call.current = some f ∧ 0 < f.origSize

/-- A step past the loops of `fillComplex` does not concern the buffers. -/
theorem Buffers.keep (h : Buffers s) (hins : Place.inside s.place = true)
    (hout : s'.converter.avpktOut = s.converter.avpktOut) (hfil : s'.call.filled = s.call.filled)
    (hcur : s'.call.current = s.call.current) (htd : s'.call.todo = s.call.todo) (hcal : s'.log.calls = s.log.calls) :
    Buffers s' where
  out := hout.trans h.out
  written := by
    rw [hcur]
    exact h.written
  filled := by
    rw [hfil]
    exact h.filled
  room := by
    rw [FillCall.sizes, hcur, htd]
    exact h.room
  delivered := by
    rw [Streams.delivered, hcal]
    exact h.delivered
  inside _ := by
    rw [hcur]
    exact h.inside hins

/-- Where the buffer at hand has room, those to come have none. -/
theorem Buffers.todo_eq (h : Buffers s) (hin : ∃ f, s.call.current = some f ∧ 0 < f.origSize) :
    ∀ b ∈ s.call.todo, b.mDataByteSize = 0 := by
  obtain ⟨f, hcur, hrm⟩ := hin
  have hone := h.room
  have hpos : decide (0 < f.origSize) = true := decide_eq_true hrm
  rw [FillCall.sizes, hcur, map_some, toList_some, singleton_append,
    countP_cons_of_pos (p := fun n => decide (0 < n)) hpos] at hone
  intro b hb
  have hze := countP_eq_zero.1 (le_zero.1 (le_of_succ_le_succ hone)) _ (mem_map_of_mem hb)
  simpa using hze

/-- Buffers without room have no bytes. -/
theorem bytes_eq_nil {b : AudioBuffer} (h : b.mDataByteSize = 0) : b.bytes = [] := by
  rw [AudioBuffer.bytes, h, take_zero]

/-- A call returns: no byte has come with it. -/
theorem Buffers.finish (h : Buffers s) (htd : ∀ b ∈ s.call.todo, b.mDataByteSize = 0) (status : OSStatus) :
    Buffers (s.finish status) := by
  refine ⟨h.out, nofun, nofun, zero_le 1, ?_, nofun⟩
  have hby : (s.call.filled ++ (s.call.current.map Filling.buffer).toList ++ s.call.todo).flatMap AudioBuffer.bytes = [] := by
    refine flatMap_eq_nil_iff.2 fun b hb => bytes_eq_nil ?_
    rcases mem_append.1 hb with hb | hb
    · rcases mem_append.1 hb with hb | hb
      · exact h.filled b hb
      · obtain ⟨f, hf, rfl⟩ := map_eq_some_iff.1 (mem_toList.1 hb)
        exact congrArg length (h.written f hf)
    · exact htd b hb
  simp only [Conversion.finish, Streams.delivered, flatMap_append, flatMap_singleton, hby, append_nil]
  exact h.delivered

theorem Buffers.fill (h : Buffers s) (hplace : s.place = .fill) : Buffers s.fill := by
  unfold Conversion.fill
  split
  · rename_i hcur
    split
    · rename_i htd
      exact h.finish (by rw [htd]; nofun) .noErr
    · rename_i buffer todo htd
      have hrm := h.room
      rw [FillCall.sizes, hcur, htd] at hrm
      refine ⟨h.out, ?_, h.filled, hrm, h.delivered, by rw [hplace]; nofun⟩
      intro f hf
      cases hf
      rfl
  · rename_i f hcur
    split
    · rename_i hlt
      split
      · rename_i hsd
        rw [h.out] at hsd
        exact absurd hsd (not_lt_zero _)
      · refine ⟨h.out, h.written, h.filled, h.room, h.delivered, fun _ => ⟨f, hcur, ?_⟩⟩
        rw [h.written f hcur] at hlt
        exact hlt
    · have hwrit := h.written f hcur
      have hrm := h.room
      rw [FillCall.sizes, hcur, map_some] at hrm
      refine ⟨h.out, nofun, ?_, ?_, h.delivered, by rw [hplace]; nofun⟩
      · intro b hb
        rcases mem_append.1 hb with hb | hb
        · exact h.filled b hb
        · obtain rfl := mem_singleton.1 hb
          exact congrArg length hwrit
      · exact le_trans ((sublist_cons_self _ _).countP_le) hrm

/-! ## The stages -/

def Placed (format : StreamDescription) (s : Conversion F) : Place → Prop
  | .fillFrame | .sendFrame | .receivePacket =>
    format.requiredBytes ≤ s.converter.audioFramePrebuf.length ∧ s.call.srcaudio = none
  | .sendPacket => s.converter.avpkt.data ≠ [] ∧ s.call.srcaudio = none
  | .setupResampler | .convert => True
  | _ => s.call.srcaudio = none

/-- Nothing is lost between two stages. -/
structure Stages (format : StreamDescription) (s : Conversion F) : Prop where
  sent : s.log.sent ++ s.waiting = s.log.inputs.map fun data => ⟨data, .input⟩
  resampled : s.log.resampled ++ s.call.srcaudio.toList = s.log.decoded
  encoded : s.log.encoded.flatten ++ s.unsent format = s.log.converted
  placed : Placed format s s.place

theorem unsent_of_ne (h : s.place ≠ .receivePacket) : s.unsent format = s.converter.audioFramePrebuf := if_neg h

theorem waiting_of_empty (h : s.converter.avpkt.data = []) : s.waiting = [] := if_pos (.inl h)

theorem waiting_of_encoder (h : s.converter.avpkt.origin = .encoder) : s.waiting = [] := if_pos (.inr h)

variable {old place : Place}

section

variable (h : Stages format s)

include h

theorem Stages.encoded_of_ne (hplace : s.place ≠ .receivePacket) :
    s.log.encoded.flatten ++ s.converter.audioFramePrebuf = s.log.converted := by
  have henc := h.encoded
  rw [unsent_of_ne hplace] at henc
  exact henc

/-- Where no frame is at hand. -/
theorem Stages.resampled_of_none (hsource : s.call.srcaudio = none) : s.log.resampled ++ [] = s.log.decoded := by
  have hres := h.resampled
  rwa [hsource] at hres

/-- The converter goes on between two of its calls of the others. -/
theorem Stages.goto (hplace : s.place ≠ .receivePacket) (hnx : place ≠ .receivePacket) (hpl : Placed format s place) :
    Stages format (s.goto place) := by
  refine ⟨h.sent, h.resampled, ?_, ?_⟩
  · rw [unsent_of_ne hnx]
    exact h.encoded_of_ne hplace
  · cases place <;> exact hpl

theorem Stages.finish (hplace : s.place ≠ .receivePacket) (hsource : s.call.srcaudio = none) (status : OSStatus) :
    Stages format (s.finish status) := by
  refine ⟨h.sent, ?_, ?_, rfl⟩
  · exact h.resampled_of_none hsource
  · exact h.encoded_of_ne hplace

theorem Stages.fill (hplace : s.place = .fill) (hout : s.converter.avpktOut = []) : Stages format s.fill := by
  have hne : s.place ≠ .receivePacket := by rw [hplace]; nofun
  have hsource : s.call.srcaudio = none := by
    have hpl := h.placed
    rw [hplace] at hpl
    exact hpl
  unfold Conversion.fill
  split
  · split
    · exact h.finish hne hsource .noErr
    · exact ⟨h.sent, h.resampled, h.encoded, by rw [hplace]; exact hsource⟩
  · split
    · split
      · rename_i hsd
        rw [hout] at hsd
        exact absurd hsd (not_lt_zero _)
      · exact h.goto hne nofun hsource
    · exact ⟨h.sent, h.resampled, h.encoded, by rw [hplace]; exact hsource⟩

end

/-! ## Runs -/

structure Inv (format : StreamDescription) (s : Conversion F) : Prop where
  buffers : Buffers s
  stages : Stages format s

theorem inv_init : Inv format (init : Conversion F) where
  buffers := ⟨rfl, nofun, nofun, zero_le 1, rfl, nofun⟩
  stages := ⟨rfl, rfl, rfl, rfl⟩

section

variable (h : Inv format s)

include h

/-- The converter goes on, past the loops of `fillComplex`. -/
theorem Inv.goto (hplace : s.place = old) (hins : Place.inside old = true) (hold : old ≠ .receivePacket)
    (hnx : place ≠ .receivePacket) (hpl : Placed format s place) : Inv format (s.goto place) where
  buffers := h.buffers.keep (hplace ▸ hins) rfl rfl rfl rfl rfl
  stages := h.stages.goto (hplace ▸ hold) hnx hpl

/-- The call returns from past the loops of `fillComplex`. -/
theorem Inv.finish (hplace : s.place = old) (hins : Place.inside old = true) (hold : old ≠ .receivePacket)
    (hsource : s.call.srcaudio = none) (status : OSStatus) : Inv format (s.finish status) where
  buffers := h.buffers.finish (h.buffers.todo_eq (h.buffers.inside (hplace ▸ hins))) status
  stages := h.stages.finish (hplace ▸ hold) hsource status

theorem Inv.placed_at (hplace : s.place = place) : Placed format s place := hplace ▸ h.stages.placed

theorem Inv.fillComplex (hplace : s.place = .idle) {buffers : List AudioBuffer}
    (hrm : (buffers.map AudioBuffer.mDataByteSize).countP (0 < ·) ≤ 1) :
    Inv format { s with place := .fill, call := ⟨[], none, buffers, none⟩ } := by
  have hsource : s.call.srcaudio = none := h.placed_at hplace
  exact ⟨⟨h.buffers.out, nofun, nofun, hrm, h.buffers.delivered, nofun⟩, h.stages.sent, h.stages.resampled_of_none hsource,
    h.stages.encoded_of_ne (by rw [hplace]; nofun), rfl⟩

theorem Inv.advance (hst : s.advance format = some s') : Inv format s' := by
  unfold Conversion.advance at hst
  split at hst
  · rename_i hplace
    cases hst
    exact ⟨h.buffers.fill hplace, h.stages.fill hplace h.buffers.out⟩
  · rename_i hplace
    cases hst
    have hsource : s.call.srcaudio = none := h.placed_at hplace
    refine h.goto hplace rfl nofun ?_ ?_
    · split_ifs <;> nofun
    · split_ifs <;> exact hsource
  · rename_i hplace
    obtain ⟨-, rfl⟩ := of_guarded hst
    have hsource : s.call.srcaudio = none := h.placed_at hplace
    exact h.goto hplace rfl nofun nofun hsource
  · rename_i hplace
    cases hst
    have hsource : s.call.srcaudio = none := h.placed_at hplace
    have henc := h.stages.encoded_of_ne (by rw [hplace]; nofun)
    have hins : Place.inside s.place = true := by rw [hplace]; rfl
    refine ⟨h.buffers.keep hins h.buffers.out.symm rfl rfl rfl rfl, h.stages.sent, h.stages.resampled, ?_, ?_⟩
    · split_ifs <;> exact henc
    · split_ifs with hle
      · exact ⟨hle, hsource⟩
      · exact hsource
  · rename_i hplace
    obtain ⟨hda, hst⟩ := ite_none_left_eq_some.1 hst
    cases hst
    exact h.goto hplace rfl nofun nofun ⟨hda, h.placed_at hplace⟩
  · cases hst

theorem Inv.initEncoder (hplace : s.place = .initEncoder) (success : Bool) : Inv format (s.initEncoder success) := by
  have hsource : s.call.srcaudio = none := h.placed_at hplace
  have hins : Place.inside s.place = true := by rw [hplace]; rfl
  unfold Conversion.initEncoder
  split
  · have henc := h.stages.encoded_of_ne (by rw [hplace]; nofun)
    exact ⟨h.buffers.keep hins rfl rfl rfl rfl rfl, h.stages.sent, h.stages.resampled, henc, hsource⟩
  · exact h.finish hplace rfl nofun hsource _

theorem Inv.pull (hplace : s.place = .pull) (result : AvResult Bytes) : Inv format (s.pull result) := by
  have hsource : s.call.srcaudio = none := h.placed_at hplace
  cases result with
  | ok output =>
    have henc := h.stages.encoded_of_ne (by rw [hplace]; nofun)
    refine ⟨h.buffers.keep (by rw [hplace]; rfl) rfl rfl rfl rfl rfl, h.stages.sent, h.stages.resampled, ?_, ?_⟩
    · rw [unsent_of_ne (by rw [show (s.pull (.ok output)).place = .pull from hplace]; nofun)]
      show s.log.encoded.flatten ++ (s.converter.audioFramePrebuf ++ output) = s.log.converted ++ output
      rw [← append_assoc, henc]
    · rw [show (s.pull (.ok output)).place = .pull from hplace]
      exact hsource
  | again => exact h.goto hplace rfl nofun nofun hsource
  | error => exact h.finish hplace rfl nofun hsource _

theorem Inv.sendFrame (hplace : s.place = .sendFrame) : Inv format (s.sendFrame format (.ok ())) := by
  obtain ⟨hle, hsource⟩ := h.placed_at hplace
  have henc := h.stages.encoded_of_ne (by rw [hplace]; nofun)
  refine ⟨h.buffers.keep (by rw [hplace]; rfl) rfl rfl rfl rfl rfl, h.stages.sent, h.stages.resampled, ?_, hle, hsource⟩
  · show (s.log.encoded ++ [s.converter.audioFramePrebuf.take format.requiredBytes]).flatten ++
      s.converter.audioFramePrebuf.drop format.requiredBytes = s.log.converted
    rw [flatten_append, flatten_singleton, append_assoc, take_append_drop, henc]

/-- A packet is received, or none: the frame has been accepted and is consumed, and no input is lost. -/
theorem Inv.received (hplace : s.place = .receivePacket)
    (hwt : s.converter.avpkt.data = [] ∨ s.converter.avpkt.origin = .encoder) (packet : Bytes) (packets : List Bytes)
    (hnx : place = .fill ∨ place = .feedDecoder) :
    Inv format { s with
      converter := { s.converter with
        avpkt := ⟨packet, .encoder⟩
        audioFramePrebuf := s.converter.audioFramePrebuf.drop format.requiredBytes }
      log := { s.log with packets := packets }
      place := place } := by
  obtain ⟨-, hsource⟩ := h.placed_at hplace
  have hsn := h.stages.sent
  rw [Conversion.waiting, if_pos hwt] at hsn
  have henc := h.stages.encoded
  rw [Conversion.unsent, if_pos hplace] at henc
  refine ⟨h.buffers.keep (by rw [hplace]; rfl) rfl rfl rfl rfl rfl, ?_, h.stages.resampled, ?_, ?_⟩
  · rw [waiting_of_encoder rfl]
    exact hsn
  · rcases hnx with rfl | rfl <;> exact henc
  · rcases hnx with rfl | rfl <;> exact hsource

theorem Inv.receivePacket (hplace : s.place = .receivePacket)
    (hwt : s.converter.avpkt.data = [] ∨ s.converter.avpkt.origin = .encoder) (result : AvResult Bytes) :
    Inv format (s.receivePacket format result) := by
  obtain ⟨hle, hsource⟩ := h.placed_at hplace
  cases result with
  | ok packet =>
    simp only [Conversion.receivePacket, Conversion.consumeFrame, ConsumableBuffer.consume_of_le hle]
    exact h.received hplace hwt packet _ (.inl rfl)
  | again =>
    simp only [Conversion.receivePacket, Conversion.consumeFrame, ConsumableBuffer.consume_of_le hle]
    exact h.received hplace hwt [] _ (.inr rfl)
  | error =>
    simp only [Conversion.receivePacket, Conversion.dropFrame, Conversion.consumeFrame, ConsumableBuffer.consume_of_le hle]
    exact (h.received hplace hwt [] s.log.packets (.inr rfl)).finish rfl rfl nofun hsource .ioErr

theorem Inv.dataProc (hplace : s.place = .feedDecoder) (hda : s.converter.avpkt.data = []) (result : Option Bytes) :
    Inv format (s.dataProc result) := by
  have hsource : s.call.srcaudio = none := h.placed_at hplace
  have hins : Place.inside s.place = true := by rw [hplace]; rfl
  have hsn := h.stages.sent
  rw [waiting_of_empty hda, append_nil] at hsn
  have henc := h.stages.encoded_of_ne (by rw [hplace]; nofun)
  cases result with
  | none => exact h.finish hplace rfl nofun hsource _
  | some data =>
    simp only [Conversion.dataProc]
    split
    · rename_i hemp
      have hkeep : Buffers { s with converter := { s.converter with avpkt := ⟨data, .input⟩ } } :=
        h.buffers.keep hins rfl rfl rfl rfl rfl
      refine ⟨hkeep.finish (h.buffers.todo_eq (h.buffers.inside hins)) .noErr, ?_, h.stages.resampled_of_none hsource, henc, rfl⟩
      rw [waiting_of_empty hemp, append_nil]
      exact hsn
    · rename_i hne
      refine ⟨h.buffers.keep hins rfl rfl rfl rfl rfl, ?_, h.stages.resampled, henc, hne, hsource⟩
      rw [Conversion.waiting, if_neg (by rintro (hx | hx); exacts [hne hx, absurd hx nofun])]
      show s.log.sent ++ [⟨data, .input⟩] = (s.log.inputs ++ [data]).map _
      rw [hsn, map_append, map_singleton]

theorem Inv.sendPacket (hplace : s.place = .sendPacket) (horig : s.converter.avpkt.origin = .input) (result : AvResult Unit) :
    Inv format (s.sendPacket result) := by
  obtain ⟨hda, hsource⟩ := h.placed_at hplace
  have hins : Place.inside s.place = true := by rw [hplace]; rfl
  cases result with
  | ok _ =>
    have hsn := h.stages.sent
    rw [Conversion.waiting, if_neg (by rw [horig]; rintro (hx | hx); exacts [hda hx, absurd hx nofun])] at hsn
    have henc := h.stages.encoded_of_ne (by rw [hplace]; nofun)
    refine ⟨h.buffers.keep hins rfl rfl rfl rfl rfl, ?_, h.stages.resampled, henc, hsource⟩
    rw [waiting_of_empty rfl, append_nil]
    exact hsn
  | again => exact h.goto hplace rfl nofun nofun hsource
  | error => exact h.finish hplace rfl nofun hsource _

theorem Inv.receiveFrame (hplace : s.place = .receiveFrame) (result : AvResult F) : Inv format (s.receiveFrame result) := by
  have hsource : s.call.srcaudio = none := h.placed_at hplace
  have hins : Place.inside s.place = true := by rw [hplace]; rfl
  cases result with
  | ok frame =>
    have henc := h.stages.encoded_of_ne (by rw [hplace]; nofun)
    have hres := h.stages.resampled_of_none hsource
    rw [append_nil] at hres
    refine ⟨h.buffers.keep hins rfl rfl rfl rfl rfl, h.stages.sent, ?_, ?_, ?_⟩
    · show s.log.resampled ++ [frame] = s.log.decoded ++ [frame]
      rw [hres]
    · simp only [Conversion.receiveFrame]
      split <;> exact henc
    · simp only [Conversion.receiveFrame]
      split <;> trivial
  | again => exact h.goto hplace rfl nofun nofun hsource
  | error => exact h.finish hplace rfl nofun hsource _

theorem Inv.setupResampler (hplace : s.place = .setupResampler) : Inv format (s.setupResampler true) := by
  have hins : Place.inside s.place = true := by rw [hplace]; rfl
  have henc := h.stages.encoded_of_ne (by rw [hplace]; nofun)
  exact ⟨h.buffers.keep hins rfl rfl rfl rfl rfl, h.stages.sent, h.stages.resampled, henc, trivial⟩

theorem Inv.convert (hplace : s.place = .convert) : Inv format (s.convert true) := by
  have hins : Place.inside s.place = true := by rw [hplace]; rfl
  have henc := h.stages.encoded_of_ne (by rw [hplace]; nofun)
  refine ⟨h.buffers.keep hins rfl rfl rfl rfl rfl, h.stages.sent, ?_, henc, rfl⟩
  show s.log.resampled ++ s.call.srcaudio.toList ++ [] = s.log.decoded
  rw [append_nil, h.stages.resampled]

theorem Inv.step {a : ConversionAction F} (hok : s.Keeps a) (hst : s.step format a = some s') : Inv format s' := by
  cases a with
  | fillComplex buffers =>
    obtain ⟨hplace, rfl⟩ := of_guarded hst
    exact h.fillComplex hplace hok
  | advance => exact h.advance hst
  | initEncoder success =>
    obtain ⟨hplace, rfl⟩ := of_guarded hst
    exact h.initEncoder hplace success
  | pull result =>
    obtain ⟨⟨hplace, -⟩, rfl⟩ := of_guarded hst
    exact h.pull hplace result
  | fillFrame success =>
    obtain ⟨hplace, rfl⟩ := of_guarded hst
    obtain rfl : success = true := hok
    obtain ⟨hle, hsource⟩ := h.placed_at hplace
    exact h.goto hplace rfl nofun nofun ⟨hle, hsource⟩
  | sendFrame result =>
    obtain ⟨hplace, rfl⟩ := of_guarded hst
    obtain rfl : result = .ok () := hok
    exact h.sendFrame hplace
  | receivePacket result =>
    obtain ⟨hplace, rfl⟩ := of_guarded hst
    exact h.receivePacket hplace hok result
  | dataProc result =>
    obtain ⟨⟨hplace, hda⟩, rfl⟩ := of_guarded hst
    exact h.dataProc hplace hda result
  | sendPacket result =>
    obtain ⟨hplace, rfl⟩ := of_guarded hst
    exact h.sendPacket hplace hok result
  | receiveFrame result =>
    obtain ⟨hplace, rfl⟩ := of_guarded hst
    exact h.receiveFrame hplace result
  | setupResampler success =>
    obtain ⟨hplace, rfl⟩ := of_guarded hst
    obtain rfl : success = true := hok
    exact h.setupResampler hplace
  | convert success =>
    obtain ⟨hplace, rfl⟩ := of_guarded hst
    obtain rfl : success = true := hok
    exact h.convert hplace

end

theorem inv_of_reaches (h : (machine format F).Reaches Keeps s) : Inv format s := h.invariant inv_init fun hinv => hinv.step

/-- The conversion is one continuous stream. -/
theorem continuous_stream (h : (machine format F).Reaches Keeps s) : ContinuousStream format s := by
  have hinv := inv_of_reaches h
  refine ⟨hinv.stages.sent, hinv.stages.resampled, hinv.stages.encoded, ?_⟩
  rw [hinv.buffers.delivered]
  exact nil_prefix

/-- One channel of 8 bits, of which the encoder is given 1024 bytes at a time. -/
def mono8 : StreamDescription := ⟨8, 1⟩

/-- One buffer is to be filled. The decoder makes a frame of the input, and the resampler 1024 bytes, which the encoder accepts. -/
def oneFrame : List (ConversionAction Nat) :=
  [.fillComplex [⟨4, [0, 0, 0, 0]⟩], .advance, .advance, .advance, .dataProc (some [1, 2]), .sendPacket (.ok ()),
    .receiveFrame (.ok 7), .setupResampler true, .convert true, .advance, .initEncoder true,
    .pull (.ok (replicate 1024 5)), .advance, .advance, .fillFrame true, .sendFrame (.ok ())]

/-- The encoder asks for more, and there is no more input. -/
theorem continuous_stream_held_back :
    ∃ s, (machine mono8 Nat).Reaches Keeps s ∧ ContinuousStream mono8 s ∧ s.log.sent = [⟨[1, 2], .input⟩] ∧
      s.log.encoded.length = 1 ∧ s.log.calls.length = 1 := by
  refine (Machine.exists_reaches_of_runOk Keeps (oneFrame ++ [.receivePacket .again, .dataProc none]) ?_).imp
    fun s h => ⟨h.1, continuous_stream h.1, h.2⟩
  decide +kernel

/-- The encoder produces a packet, and the decoder is sent it. -/
theorem encoder_packet_decoded :
    ∃ s, (machine mono8 Nat).Reachable s ∧ s.log.inputs = [[1, 2]] ∧ s.log.packets = [[9]] ∧
      s.log.sent = [⟨[1, 2], .input⟩, ⟨[9], .encoder⟩] ∧ ¬ContinuousStream mono8 s := by
  obtain ⟨s, hreach, hinp, hpack, hsn⟩ := Machine.exists_reachable_of_run (M := machine mono8 Nat)
    (oneFrame ++ [.receivePacket (.ok [9]), .advance, .advance, .pull .again, .advance, .advance, .sendPacket (.ok ())])
    (P := fun s => s.log.inputs = [[1, 2]] ∧ s.log.packets = [[9]] ∧ s.log.sent = [⟨[1, 2], .input⟩, ⟨[9], .encoder⟩])
    (by decide +kernel)
  refine ⟨s, hreach, hinp, hpack, hsn, fun h => ?_⟩
  have hlen := congrArg length h.sent
  simp only [hsn, hinp, length_append, length_map, length_cons, length_nil] at hlen
  omega

end Conversion

end Osxie.CoreAudio
