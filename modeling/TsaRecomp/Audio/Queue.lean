/-
**The audio queue.**

`queue_samples` gets the audio of the game in chunks.  A chunk is converted to floats with its
channels swapped, resampled to the rate of the output and queued.  So that the resampling does not
click at the ends of a chunk, the last four frames of the chunk before are put in front of it, and
what they become is not played: half of it is left out at the start and half at the end.

When too much is queued already, only every second, fourth, … frame is queued.

The arithmetic is that of `uint32_t`: the number of frames that are left out is four times the
output rate by the rate of the game, and the bytes that are queued are counted in 32 bits.

Main definitions:

* `Audio.AudioState`, `Audio.updateAudioConverter`, `Audio.queueSamples` — the functions of
  `src/main/main.cpp`, with the converter of SDL as an argument;
* `Audio.queueConverted` — the end of `queue_samples`, behind the conversion;
* `Audio.Joins` — **chunks join without loss or repetition**;
* `Audio.WholeFrames` — **only whole frames are queued**.

Main results:

* `Audio.queueSamples_eq` — what a chunk adds to the queue, and what it leaves for the next one;
* `Audio.joins_of_lt` — chunks join, where the counts fit into 32 bits;
* `Audio.wholeFrames_iff` — only whole frames are queued for these rates, lengths and latencies.
-/

import TsaRecomp.Lib.Windows

set_option relaxedAutoImplicit false
set_option autoImplicit false

namespace Audio

open Windows

/-! ### The functions -/

/-- `duplicated_input_frames` -/
def duplicatedInputFrames : BitVec 32 := 4

/-- `output_channels` -/
def outputChannels : BitVec 32 := 2

/-- `duplicated_input_frames * input_channels` -/
def duplicatedSamples : ℕ := 8

/-- `sizeof(swap_buffer[0])` -/
def sizeofFloat : ℕ := 4

/-- `bytes_per_frame` -/
def bytesPerFrame : ℕ := 8

/-- The static variables. -/
structure AudioState (F : Type) where
  sampleRate : BitVec 32
  outputSampleRate : BitVec 32
  discardedOutputFrames : BitVec 32
  /-- `audio_convert.len_mult` -/
  lenMult : ℕ
  /-- `swap_buffer.size()` -/
  swapSize : ℕ
  swapBuffer : ℕ → F
  duplicatedSampleBuffer : ℕ → F

/-- What a call of `queue_samples` depends on. -/
structure Call where
  /-- `audio_data`, of `sample_count` samples. -/
  samples : List (BitVec 16)
  /-- `recompui::config::sound::get_main_volume()` -/
  mainVolume : ℕ
  /-- `SDL_GetQueuedAudioSize(audio_device)` -/
  queuedSize : BitVec 32

/-- What is passed to `SDL_QueueAudio`: the place of the pointer in the buffer, and the bytes.  With
it, the places that the skip loop has read. -/
structure Queued (F : Type) where
  buffer : ℕ → F
  offset : ℕ
  numBytes : BitVec 32
  reads : List ℕ

/-- The samples that are queued. -/
def Queued.samples {F : Type} (queued : Queued F) : List F :=
  window queued.buffer queued.offset (queued.numBytes.toNat / sizeofFloat)

/-- `cur_queued_microseconds` -/
def curQueuedMicroseconds (queuedSize sampleRate : BitVec 32) : ℕ :=
  queuedSize.toNat / bytesPerFrame * 1000000 / sampleRate.toNat

/-- `skip_factor` -/
def skipFactor (queuedSize sampleRate : BitVec 32) : BitVec 32 :=
  BitVec.ofNat 32 (curQueuedMicroseconds queuedSize sampleRate / 100000)

/-- The place that the skip loop reads a frame from. -/
def skipSource (offset : ℕ) (skipRatio : BitVec 32) (i : ℕ) : ℕ :=
  offset + (2 * skipRatio).toNat * i

/-- The skip loop. -/
def skipLoop {F : Type} (offset : ℕ) (skipRatio : BitVec 32) : ℕ → (ℕ → F) → ℕ → F
  | 0, buffer => buffer
  | n + 1, buffer =>
      let buffer := skipLoop offset skipRatio n buffer
      let buffer := Function.update buffer (offset + (2 * n + 0))
        (buffer (skipSource offset skipRatio n + 0))
      Function.update buffer (offset + (2 * n + 1)) (buffer (skipSource offset skipRatio n + 1))

/-- `queue_samples`, behind the conversion.  There is no result where the rate is 0, or where an
`int` is shifted by 32 or more. -/
def queueConverted {F : Type} (sampleRate discardedOutputFrames queuedSize lenCvt : BitVec 32)
    (buffer : ℕ → F) : Option (Queued F) :=
  if sampleRate = 0 then none
  else
    let skipFactor := skipFactor queuedSize sampleRate
    let numBytesToQueue :=
      lenCvt - outputChannels * discardedOutputFrames * BitVec.ofNat 32 sizeofFloat
    let samplesToQueue := (outputChannels * discardedOutputFrames / 2).toNat
    if skipFactor = 0 then some ⟨buffer, samplesToQueue, numBytesToQueue, []⟩
    else if 32 ≤ skipFactor.toNat then none
    else
      let skipRatio := (1 : BitVec 32) <<< skipFactor.toNat
      let numBytesToQueue := numBytesToQueue / skipRatio
      let n := numBytesToQueue.toNat / (outputChannels.toNat * sizeofFloat)
      some {
        buffer := skipLoop samplesToQueue skipRatio n buffer
        offset := samplesToQueue
        numBytes := numBytesToQueue
        reads := (List.range n).flatMap fun i =>
          [skipSource samplesToQueue skipRatio i + 0, skipSource samplesToQueue skipRatio i + 1] }

section Functions

variable {F : Type} [Zero F]

/-- The static variables at the start of the program. -/
def AudioState.init : AudioState F where
  sampleRate := 48000
  outputSampleRate := 48000
  discardedOutputFrames := 0
  lenMult := 0
  swapSize := 0
  swapBuffer := fun _ => 0
  duplicatedSampleBuffer := fun _ => 0

/-- `update_audio_converter`, where `SDL_BuildAudioCVT` answers with `len_mult`, if it can.  There
is no result for the rate 0. -/
def updateAudioConverter (build : BitVec 32 → BitVec 32 → Option ℕ) (s : AudioState F) :
    Option (AudioState F) := do
  let lenMult ← build s.sampleRate s.outputSampleRate
  if s.sampleRate = 0 then none
  else
    some { s with
      lenMult
      discardedOutputFrames := duplicatedInputFrames * s.outputSampleRate / s.sampleRate }

/-- `set_frequency` -/
def setFrequency (build : BitVec 32 → BitVec 32 → Option ℕ) (freq : BitVec 32) (s : AudioState F) :
    Option (AudioState F) :=
  updateAudioConverter build { s with sampleRate := freq }

/-- `swap_buffer.resize(max_sample_count)`, where it is called. -/
def AudioState.reserve (s : AudioState F) (sampleCount : ℕ) : AudioState F :=
  let resampledSampleCount := sampleCount + duplicatedSamples
  let maxSampleCount := max resampledSampleCount (resampledSampleCount * s.lenMult)
  if s.swapSize < maxSampleCount then
    { s with
      swapSize := maxSampleCount
      swapBuffer := fun i => if i < s.swapSize then s.swapBuffer i else 0 }
  else s

/-- The loop that converts the samples, with the channels swapped: `value` is a sample as a
float. -/
def convertLoop (value : ℕ → F) : ℕ → (ℕ → F) → ℕ → F
  | 0, buffer => buffer
  | n + 1, buffer =>
      let buffer := convertLoop value n buffer
      let i := 2 * n
      let buffer := Function.update buffer (i + 0 + duplicatedSamples) (value (i + 1))
      Function.update buffer (i + 1 + duplicatedSamples) (value (i + 0))

/-- `queue_samples`.  `convert` is `SDL_ConvertAudio`, from `len` and the buffer to `len_cvt` and
the buffer; `scale` is a sample as a float, for a volume. -/
def queueSamples (convert : BitVec 32 → (ℕ → F) → Option (BitVec 32 × (ℕ → F)))
    (scale : BitVec 16 → ℕ → F) (s : AudioState F) (call : Call) :
    Option (Queued F × AudioState F) := do
  let sampleCount := call.samples.length
  let s := s.reserve sampleCount
  let swapBuffer := fill s.swapBuffer 0 s.duplicatedSampleBuffer duplicatedSamples
  let swapBuffer := convertLoop (fun i => scale (call.samples.getD i 0) call.mainVolume)
    ((sampleCount + 1) / 2) swapBuffer
  let duplicatedSampleBuffer := fill s.duplicatedSampleBuffer 0
    (fun i => swapBuffer (i + sampleCount)) duplicatedSamples
  let len := BitVec.ofNat 32 ((sampleCount + duplicatedSamples) * sizeofFloat)
  let (lenCvt, swapBuffer) ← convert len swapBuffer
  let queued ← queueConverted s.sampleRate s.discardedOutputFrames call.queuedSize lenCvt swapBuffer
  some (queued, { s with swapBuffer := queued.buffer, duplicatedSampleBuffer })

/-- Calls one after the other, and everything that they pass to `SDL_QueueAudio`. -/
def queueAll (convert : BitVec 32 → (ℕ → F) → Option (BitVec 32 × (ℕ → F)))
    (scale : BitVec 16 → ℕ → F) : AudioState F → List Call → Option (List F × AudioState F)
  | s, [] => some ([], s)
  | s, call :: calls => do
      let (queued, s) ← queueSamples convert scale s call
      let (rest, s) ← queueAll convert scale s calls
      some (queued.samples ++ rest, s)

end Functions

/-! ### What is expected -/

/-- The channels of every frame are swapped. -/
def swapChannels {α : Type} : List α → List α
  | a :: b :: l => b :: a :: swapChannels l
  | l => l

/-- The samples of two frames. -/
def twoFrames : ℕ := 4

/-- Without the last two frames. -/
def withoutLastFrames {α : Type} (l : List α) : List α := l.take (l.length - twoFrames)

/-- `SDL_ConvertAudio`, where the rates are the same. -/
def identity {F : Type} (len : BitVec 32) (buffer : ℕ → F) : Option (BitVec 32 × (ℕ → F)) :=
  some (len, buffer)

section Expected

variable {F : Type} [Zero F] (scale : BitVec 16 → ℕ → F)

/-- The audio of the game, scaled and with its channels swapped. -/
def sound (mainVolume : ℕ) (calls : List Call) : List F :=
  (swapChannels (calls.flatMap Call.samples)).map fun sample => scale sample mainVolume

/-- Two silent frames. -/
def silence : List F := List.replicate twoFrames 0

/-- **Chunks join without loss or repetition**: two silent frames and the audio of the game are
queued, but for the last two frames, wherever a chunk ends. -/
def Joins (rate : BitVec 32) (mainVolume : ℕ) (calls : List Call) : Prop :=
  ∀ build s, updateAudioConverter build
      { AudioState.init with sampleRate := rate, outputSampleRate := rate } = some s →
    ∃ t, queueAll identity scale s calls =
      some (withoutLastFrames (silence ++ sound scale mainVolume calls), t)

end Expected

/-- A chunk: an even number of samples, more than 8, at the constant volume, and with less than
100 ms queued. -/
structure Call.Admissible (call : Call) (rate : BitVec 32) (mainVolume : ℕ) : Prop where
  even : 2 ∣ call.samples.length
  long : duplicatedSamples < call.samples.length
  volume : call.mainVolume = mainVolume
  latency : call.queuedSize.toNat / bytesPerFrame * 10 < rate.toNat

/-! ### A chunk -/

section Chunk

variable {F : Type}

/-- The index of the other channel of a frame. -/
def partner (i : ℕ) : ℕ := if i % 2 = 0 then i + 1 else i - 1

/-- The conversion writes to the places of a window. -/
theorem convertLoop_eq (value : ℕ → F) (n : ℕ) (buffer : ℕ → F) : convertLoop value n buffer =
    fill buffer duplicatedSamples (fun i => value (partner i)) (2 * n) := by
  induction n with
  | zero => rfl
  | succ n ih =>
      have heven : partner (2 * n) = 2 * n + 1 := if_pos (by omega)
      have hodd : partner (2 * n + 1) = 2 * n := if_neg (by omega)
      rw [convertLoop, ih, Nat.mul_succ, fill, fill, heven, hodd, Nat.add_comm duplicatedSamples,
        Nat.add_comm duplicatedSamples]
      rfl

theorem window_partner (g : BitVec 16 → F) {l : List (BitVec 16)} (h : 2 ∣ l.length) :
    window (fun i => g (l.getD (partner i) 0)) 0 l.length = (swapChannels l).map g := by
  induction l using List.twoStepInduction with
  | nil => rfl
  | singleton a => simp at h
  | cons_cons a b l ih _ =>
      have hl : 2 ∣ l.length := by
        simp only [List.length_cons] at h
        omega
      have hrest : window (fun i => g ((a :: b :: l).getD (partner i) 0)) 2 l.length =
          window (fun i => g (l.getD (partner i) 0)) 0 l.length := by
        refine window_congr fun i _ => ?_
        have hpartner : partner (2 + i) = partner (0 + i) + 2 := by
          unfold partner
          split_ifs <;> omega
        rw [hpartner]
        rfl
      rw [List.length_cons, List.length_cons, window, window, hrest, ih hl]
      rfl

theorem swapChannels_append {α : Type} {l : List α} (h : 2 ∣ l.length) (l' : List α) :
    swapChannels (l ++ l') = swapChannels l ++ swapChannels l' := by
  induction l using List.twoStepInduction with
  | nil => rfl
  | singleton a => simp at h
  | cons_cons a b l ih _ =>
      have hl : 2 ∣ l.length := by
        simp only [List.length_cons] at h
        omega
      rw [List.cons_append, List.cons_append, swapChannels, swapChannels, ih hl]
      rfl

variable [Zero F] (scale : BitVec 16 → ℕ → F) (s : AudioState F) (call : Call)

/-- The buffer in front of the conversion. -/
def filled : ℕ → F :=
  convertLoop (fun i => scale (call.samples.getD i 0) call.mainVolume)
    ((call.samples.length + 1) / 2)
    (fill (s.reserve call.samples.length).swapBuffer 0 s.duplicatedSampleBuffer duplicatedSamples)

/-- The state behind the conversion. -/
def behind : AudioState F :=
  { s.reserve call.samples.length with
    swapBuffer := filled scale s call
    duplicatedSampleBuffer := fill s.duplicatedSampleBuffer 0
      (fun i => filled scale s call (i + call.samples.length)) duplicatedSamples }

/-- The frames of the last chunk that are still to be queued. -/
def AudioState.pending : List F := window s.duplicatedSampleBuffer twoFrames twoFrames

variable {scale s call}

/-- Only the buffer is changed. -/
theorem exists_reserve_eq (s : AudioState F) (n : ℕ) : ∃ swapSize swapBuffer,
    s.reserve n = { s with swapSize, swapBuffer } := by
  unfold AudioState.reserve
  dsimp only
  split_ifs
  · exact ⟨_, _, rfl⟩
  · exact ⟨_, _, rfl⟩

@[simp] theorem reserve_sampleRate (n : ℕ) : (s.reserve n).sampleRate = s.sampleRate := by
  obtain ⟨_, _, h⟩ := exists_reserve_eq s n
  rw [h]

@[simp] theorem reserve_discarded (n : ℕ) :
    (s.reserve n).discardedOutputFrames = s.discardedOutputFrames := by
  obtain ⟨_, _, h⟩ := exists_reserve_eq s n
  rw [h]

@[simp] theorem reserve_duplicated (n : ℕ) :
    (s.reserve n).duplicatedSampleBuffer = s.duplicatedSampleBuffer := by
  obtain ⟨_, _, h⟩ := exists_reserve_eq s n
  rw [h]

/-- No frame is skipped with less than 100 ms queued. -/
theorem skipFactor_eq_zero {queuedSize rate : BitVec 32}
    (h : queuedSize.toNat / bytesPerFrame * 10 < rate.toNat) : skipFactor queuedSize rate = 0 := by
  have hmicro : curQueuedMicroseconds queuedSize rate < 100000 := by
    unfold curQueuedMicroseconds
    rw [Nat.div_lt_iff_lt_mul (by omega)]
    omega
  unfold skipFactor
  rw [Nat.div_eq_of_lt hmicro]
  rfl

/-- **What a chunk adds to the queue**, with less than 100 ms queued. -/
theorem queueSamples_eq
    (h : call.queuedSize.toNat / bytesPerFrame * 10 < s.sampleRate.toNat) :
    queueSamples identity scale s call = some (
      { buffer := filled scale s call
        offset := (outputChannels * s.discardedOutputFrames / 2).toNat
        numBytes := BitVec.ofNat 32 ((call.samples.length + duplicatedSamples) * sizeofFloat) -
          outputChannels * s.discardedOutputFrames * BitVec.ofNat 32 sizeofFloat
        reads := [] }, behind scale s call) := by
  have hrate : s.sampleRate ≠ 0 := by
    intro h0
    rw [h0] at h
    exact Nat.not_lt_zero _ h
  have hskip := skipFactor_eq_zero h
  unfold queueSamples
  simp only [identity, Option.bind_eq_bind, Option.bind_some, reserve_sampleRate,
    reserve_discarded, reserve_duplicated, queueConverted, if_neg hrate, hskip, if_true, behind,
    filled]

/-- The buffer is the frames that have been put in front, and the chunk. -/
theorem filled_eq (h : 2 ∣ call.samples.length) : filled scale s call =
    fill (fill (s.reserve call.samples.length).swapBuffer 0 s.duplicatedSampleBuffer
      duplicatedSamples) duplicatedSamples
      (fun i => scale (call.samples.getD (partner i) 0) call.mainVolume) call.samples.length := by
  have hrounds : 2 * ((call.samples.length + 1) / 2) = call.samples.length := by omega
  rw [filled, convertLoop_eq, hrounds]

/-- The second half of the frames that have been put in front of the chunk. -/
theorem window_filled_pending (h : 2 ∣ call.samples.length) :
    window (filled scale s call) twoFrames twoFrames = s.pending := by
  rw [filled_eq h, window_fill_before (show twoFrames + twoFrames ≤ duplicatedSamples from le_rfl)]
  refine window_congr fun i hi => ?_
  have hlt : twoFrames + i < duplicatedSamples := by
    unfold twoFrames duplicatedSamples at *
    omega
  have happly := @fill_apply F (s.reserve call.samples.length).swapBuffer s.duplicatedSampleBuffer 0
    duplicatedSamples (twoFrames + i) hlt
  rwa [Nat.zero_add] at happly

/-- The chunk. -/
theorem window_filled_sound (h : 2 ∣ call.samples.length) :
    window (filled scale s call) duplicatedSamples call.samples.length =
      (swapChannels call.samples).map fun sample => scale sample call.mainVolume := by
  rw [filled_eq h, window_fill]
  exact window_partner (fun sample => scale sample call.mainVolume) h

/-- The last two frames of the chunk are left for the next one. -/
theorem pending_behind : (behind scale s call).pending =
    window (filled scale s call) (twoFrames + call.samples.length) twoFrames := by
  refine window_congr fun i hi => ?_
  have hlt : twoFrames + i < duplicatedSamples := by
    unfold twoFrames duplicatedSamples at *
    omega
  have happly := @fill_apply F s.duplicatedSampleBuffer
    (fun i => filled scale s call (i + call.samples.length)) 0 duplicatedSamples (twoFrames + i) hlt
  rw [Nat.zero_add] at happly
  refine happly.trans (congrArg (filled scale s call) ?_)
  omega

/-- **What a chunk leaves and what it queues** are the frames that were left and the chunk. -/
theorem window_filled_append (h : 2 ∣ call.samples.length) :
    window (filled scale s call) twoFrames call.samples.length ++ (behind scale s call).pending =
      s.pending ++ (swapChannels call.samples).map fun sample => scale sample call.mainVolume := by
  rw [pending_behind, ← window_add, Nat.add_comm, window_add, window_filled_pending h,
    show twoFrames + twoFrames = duplicatedSamples from rfl, window_filled_sound h]

end Chunk

/-! ### All chunks -/

section Joins

variable {F : Type} [Zero F] {scale : BitVec 16 → ℕ → F} {s t : AudioState F} {call : Call}
  {calls : List Call} {rate : BitVec 32} {mainVolume : ℕ}

/-- The rates are the same. -/
structure SameRate (s : AudioState F) (rate : BitVec 32) : Prop where
  sampleRate : s.sampleRate = rate
  discarded : s.discardedOutputFrames = 4

/-- **A chunk**, with the rates the same and a count that fits. -/
theorem exists_queueSamples (scale : BitVec 16 → ℕ → F) (hs : SameRate s rate)
    (h : call.Admissible rate mainVolume) (hlt : call.samples.length < 2 ^ 30) : ∃ queued t,
      queueSamples identity scale s call = some (queued, t) ∧ SameRate t rate ∧
        queued.samples ++ t.pending = s.pending ++ sound scale mainVolume [call] := by
  have hlatency : call.queuedSize.toNat / bytesPerFrame * 10 < s.sampleRate.toNat := by
    rw [hs.sampleRate]
    exact h.latency
  refine ⟨_, _, queueSamples_eq hlatency, ⟨?_, ?_⟩, ?_⟩
  · exact (reserve_sampleRate _).trans hs.sampleRate
  · exact (reserve_discarded _).trans hs.discarded
  · have hbytes : (BitVec.ofNat 32 ((call.samples.length + duplicatedSamples) * sizeofFloat) -
        outputChannels * s.discardedOutputFrames * BitVec.ofNat 32 sizeofFloat).toNat /
          sizeofFloat = call.samples.length := by
      rw [hs.discarded, show outputChannels * 4 * BitVec.ofNat 32 sizeofFloat = 32 from rfl,
        BitVec.toNat_sub, BitVec.toNat_ofNat]
      unfold duplicatedSamples sizeofFloat
      rw [show (32 : BitVec 32).toNat = 32 from rfl]
      omega
    have hoffset : (outputChannels * s.discardedOutputFrames / 2).toNat = twoFrames := by
      rw [hs.discarded]
      rfl
    have hsound : sound scale mainVolume [call] =
        (swapChannels call.samples).map fun sample => scale sample call.mainVolume := by
      rw [sound, h.volume, List.flatMap_cons, List.flatMap_nil, List.append_nil]
    rw [Queued.samples, hbytes, hoffset, hsound]
    exact window_filled_append h.even

/-- **The run lemma**: what has been queued and what is left is what was left and the chunks. -/
theorem exists_queueAll (scale : BitVec 16 → ℕ → F) (hs : SameRate s rate)
    (hcalls : ∀ c ∈ calls, c.Admissible rate mainVolume ∧ c.samples.length < 2 ^ 30) :
    ∃ queued t, queueAll identity scale s calls = some (queued, t) ∧
      queued ++ t.pending = s.pending ++ sound scale mainVolume calls := by
  induction calls generalizing s with
  | nil => exact ⟨[], s, rfl, by simp [sound, swapChannels]⟩
  | cons call calls ih =>
      obtain ⟨hcall, hlt⟩ := hcalls call List.mem_cons_self
      obtain ⟨queued, t, hqueue, ht, hstep⟩ := exists_queueSamples scale hs hcall hlt
      obtain ⟨rest, u, hrest, hrun⟩ := ih ht fun c hc => hcalls c (List.mem_cons_of_mem _ hc)
      refine ⟨queued.samples ++ rest, u, ?_, ?_⟩
      · simp only [queueAll, hqueue, hrest, Option.bind_eq_bind, Option.bind_some]
      · have hsound : sound scale mainVolume (call :: calls) =
            sound scale mainVolume [call] ++ sound scale mainVolume calls := by
          unfold sound
          rw [List.flatMap_cons, swapChannels_append hcall.even, List.map_append,
            List.flatMap_cons, List.flatMap_nil, List.append_nil]
        rw [List.append_assoc, hrun, ← List.append_assoc, hstep, List.append_assoc, hsound]

omit [Zero F] in
theorem updateAudioConverter_eq_some {build : BitVec 32 → BitVec 32 → Option ℕ}
    (h : updateAudioConverter build s = some t) : s.sampleRate ≠ 0 ∧
      ∃ lenMult, t = { s with
        lenMult
        discardedOutputFrames := duplicatedInputFrames * s.outputSampleRate / s.sampleRate } := by
  unfold updateAudioConverter at h
  cases hb : build s.sampleRate s.outputSampleRate with
  | none => simp [hb] at h
  | some lenMult =>
      simp only [hb, Option.bind_eq_bind, Option.bind_some] at h
      split_ifs at h with h0
      exact ⟨h0, lenMult, (Option.some.inj h).symm⟩

/-- **Chunks join without loss or repetition**, where four times the rate and the bytes of a chunk
fit into 32 bits. -/
theorem joins_of_lt (hrate : rate.toNat < 2 ^ 30)
    (hcalls : ∀ c ∈ calls, c.Admissible rate mainVolume ∧ c.samples.length < 2 ^ 30) :
    Joins scale rate mainVolume calls := by
  intro build s hs
  obtain ⟨h0, lenMult, rfl⟩ := updateAudioConverter_eq_some hs
  have hpos : 0 < rate.toNat := Nat.pos_of_ne_zero fun e => h0 (BitVec.eq_of_toNat_eq e)
  have hdiscarded : duplicatedInputFrames * rate / rate = 4 := by
    refine BitVec.eq_of_toNat_eq ?_
    rw [BitVec.toNat_udiv, BitVec.toNat_mul, show duplicatedInputFrames.toNat = 4 from rfl,
      Nat.mod_eq_of_lt (by omega), Nat.mul_div_cancel _ hpos]
    rfl
  have hsame : SameRate { AudioState.init (F := F) with
      sampleRate := rate
      outputSampleRate := rate
      lenMult
      discardedOutputFrames := duplicatedInputFrames * rate / rate } rate := ⟨rfl, hdiscarded⟩
  obtain ⟨queued, t, hqueue, hrun⟩ := exists_queueAll scale hsame hcalls
  refine ⟨t, hqueue.trans ?_⟩
  have hpending : t.pending.length = twoFrames := length_window
  have hsilence : window (fun _ => (0 : F)) twoFrames twoFrames = silence := window_const 0
  have hall : queued ++ t.pending = silence ++ sound scale mainVolume calls := by
    rw [hrun, ← hsilence]
    rfl
  rw [← hall, withoutLastFrames, List.length_append, hpending, Nat.add_sub_cancel,
    List.take_left' rfl]

end Joins

/-- `audio_data[i] * (0.5f / 32768.0f) * cur_main_volume`, which is exact for the volume 100. -/
def floatOf (sample : BitVec 16) (mainVolume : ℕ) : ℚ :=
  sample.toInt * (1 / 65536) * (mainVolume / 100)

/-- A chunk of five frames. -/
def fiveFrames : Call := ⟨[1, 2, 3, 4, 5, 6, 7, 8, 9, 10], 100, 0⟩

theorem admissible_fiveFrames {rate : BitVec 32} (h : 0 < rate.toNat) :
    fiveFrames.Admissible rate 100 := ⟨by decide, by decide, rfl, h⟩

theorem joins_of_lt_fiveFrames : Joins floatOf 48000 100 [fiveFrames, fiveFrames] := by
  refine joins_of_lt (by decide) fun c hc => ?_
  obtain rfl : c = fiveFrames := by simpa using hc
  exact ⟨admissible_fiveFrames (by decide), by decide⟩

theorem length_swapChannels {α : Type} (l : List α) : (swapChannels l).length = l.length := by
  induction l using List.twoStepInduction with
  | nil => rfl
  | singleton a => rfl
  | cons_cons a b l ih _ =>
      rw [swapChannels, List.length_cons, List.length_cons, ih]
      rfl

/-- The bytes of a single chunk. -/
theorem length_of_joins {F : Type} [Zero F] {scale : BitVec 16 → ℕ → F} {rate : BitVec 32}
    {mainVolume : ℕ} {call : Call} (h : Joins scale rate mainVolume [call])
    (hcall : call.Admissible rate mainVolume) :
    (BitVec.ofNat 32 ((call.samples.length + duplicatedSamples) * sizeofFloat) -
      outputChannels * (duplicatedInputFrames * rate / rate) * BitVec.ofNat 32 sizeofFloat).toNat /
        sizeofFloat = call.samples.length := by
  have h0 : rate ≠ 0 := by
    rintro rfl
    exact Nat.not_lt_zero _ hcall.latency
  obtain ⟨t, ht⟩ := h (fun _ _ => some 1) { AudioState.init with
    sampleRate := rate
    outputSampleRate := rate
    lenMult := 1
    discardedOutputFrames := duplicatedInputFrames * rate / rate } (by
      unfold updateAudioConverter
      dsimp only [Option.bind_eq_bind, Option.bind_some]
      rw [if_neg h0])
  rw [queueAll, queueSamples_eq hcall.latency] at ht
  have hlist := congrArg (fun r => r.map fun p => p.1.length) ht
  simp only [Option.bind_eq_bind, Option.bind_some, queueAll, List.append_nil, Option.map_some,
    Option.some.injEq, Queued.samples, length_window, withoutLastFrames, List.length_take,
    List.length_append, silence, List.length_replicate, sound, List.length_map,
    length_swapChannels, List.flatMap_cons, List.flatMap_nil] at hlist
  omega

/-- A chunk of 2²⁹ frames. -/
def longChunk : Call := ⟨List.replicate (2 ^ 30) 0, 100, 0⟩

/-- **Counts that do not fit**: of a chunk of 2³² bytes nothing is queued, and at a rate of 2³⁰ no
frames are left out. -/
theorem not_joins :
    (longChunk.Admissible 48000 100 ∧ ¬ Joins floatOf 48000 100 [longChunk]) ∧
      fiveFrames.Admissible 0x40000000 100 ∧ ¬ Joins floatOf 0x40000000 100 [fiveFrames] := by
  have hlength : longChunk.samples.length = 2 ^ 30 := List.length_replicate
  have hlong : longChunk.Admissible 48000 100 := by
    refine ⟨?_, ?_, rfl, by decide⟩
    · rw [hlength]
      decide
    · rw [hlength]
      decide
  refine ⟨⟨hlong, fun h => ?_⟩, admissible_fiveFrames (by decide), fun h => ?_⟩
  · have hbytes := length_of_joins h hlong
    rw [hlength] at hbytes
    revert hbytes
    decide
  · have hbytes := length_of_joins h (admissible_fiveFrames (by decide))
    revert hbytes
    decide

/-! ### Whole frames -/

/-- **Only whole frames are queued**: the pointer and the bytes are at the limits of frames, and
what the skip loop reads has been converted. -/
structure WholeFrames {F : Type} (queued : Queued F) (lenCvt : BitVec 32) : Prop where
  offset : outputChannels.toNat ∣ queued.offset
  bytes : outputChannels.toNat * sizeofFloat ∣ queued.numBytes.toNat
  reads : ∀ i ∈ queued.reads, i < lenCvt.toNat / sizeofFloat

/-- The output frames of four frames of the game, in 32 bits. -/
def discardedFrames (rate outputRate : BitVec 32) : ℕ :=
  4 * outputRate.toNat % 2 ^ 32 / rate.toNat

/-- The tenths of a second that are queued, in 32 bits. -/
def queuedTenths (queuedSize rate : BitVec 32) : ℕ :=
  queuedSize.toNat / bytesPerFrame * 10 / rate.toNat % 2 ^ 32

/-- Whole output frames, and more of them than are left out. -/
structure Converted (rate outputRate lenCvt : BitVec 32) : Prop where
  nonneg : lenCvt.toNat < 2 ^ 31
  whole : 8 ∣ lenCvt.toNat
  long : 8 * discardedFrames rate outputRate < lenCvt.toNat

/-- **The rates, lengths and latencies**: an even number of frames is left out, less than 3.2 s are
queued, and nearly nothing is left of the other frames when they are divided by the ratio. -/
def Divides (rate outputRate lenCvt queuedSize : BitVec 32) : Prop :=
  2 ∣ discardedFrames rate outputRate ∧ queuedTenths queuedSize rate < 32 ∧
    8 * ((lenCvt.toNat / 8 - discardedFrames rate outputRate) % 2 ^ queuedTenths queuedSize rate) <
      2 ^ queuedTenths queuedSize rate

instance (rate outputRate lenCvt queuedSize : BitVec 32) :
    Decidable (Divides rate outputRate lenCvt queuedSize) :=
  inferInstanceAs (Decidable (_ ∧ _))

section Whole

variable {rate outputRate lenCvt queuedSize : BitVec 32}

theorem toNat_discarded : (duplicatedInputFrames * outputRate / rate).toNat =
    discardedFrames rate outputRate := by
  rw [BitVec.toNat_udiv, BitVec.toNat_mul]
  rfl

theorem toNat_skipFactor : (skipFactor queuedSize rate).toNat = queuedTenths queuedSize rate := by
  unfold skipFactor curQueuedMicroseconds queuedTenths
  have hscale : queuedSize.toNat / bytesPerFrame * 1000000 =
      queuedSize.toNat / bytesPerFrame * 10 * 100000 := by ring
  rw [BitVec.toNat_ofNat, Nat.div_div_eq_div_mul, hscale, Nat.mul_div_mul_right _ _ (by omega)]

/-- The bytes that are left of whole frames. -/
theorem eight_dvd_div_iff {m k : ℕ} (hk : 0 < k) : 8 ∣ 8 * m / k ↔ 8 * (m % k) < k := by
  have hsplit : 8 * m / k = 8 * (m / k) + 8 * (m % k) / k := by
    conv_lhs => rw [← Nat.div_add_mod m k]
    rw [Nat.mul_add, show 8 * (k * (m / k)) = k * (8 * (m / k)) by ring,
      Nat.mul_add_div hk]
  have hmod := Nat.mod_lt m hk
  have hlt : 8 * (m % k) / k < 8 := Nat.div_lt_of_lt_mul (by omega)
  rw [hsplit, ← Nat.div_eq_zero_iff_lt hk]
  generalize 8 * (m % k) / k = rest at hlt ⊢
  omega

/-- What the skip loop reads. -/
theorem lt_of_mem_reads {d m k i : ℕ} {skipRatio : BitVec 32} (hk : skipRatio.toNat = k)
    (hpos : 0 < k)
    (hi : i ∈ (List.range (8 * m / k / (outputChannels.toNat * sizeofFloat))).flatMap fun i =>
      [skipSource d skipRatio i + 0, skipSource d skipRatio i + 1]) : i < 2 * (m + d) := by
  obtain ⟨j, hj, hi⟩ := List.mem_flatMap.1 hi
  have hframes : 8 * m / k / (outputChannels.toNat * sizeofFloat) = m / k := by
    rw [show outputChannels.toNat * sizeofFloat = 8 from rfl, Nat.div_div_eq_div_mul,
      Nat.mul_comm k, Nat.mul_div_mul_left _ _ (by omega)]
  rw [hframes, List.mem_range, Nat.lt_iff_add_one_le, Nat.le_div_iff_mul_le hpos] at hj
  have hratio : (2 * skipRatio).toNat ≤ 2 * k := by
    rw [BitVec.toNat_mul, hk, show (2 : BitVec 32).toNat = 2 from rfl]
    exact Nat.mod_le _ _
  have hsource : skipSource d skipRatio j ≤ d + 2 * k * j :=
    Nat.add_le_add_left (Nat.mul_le_mul_right j hratio) d
  have hmul : (j + 1) * k = k * j + k := by ring
  have hdouble : 2 * k * j = 2 * (k * j) := by ring
  have hcase : i = skipSource d skipRatio j ∨ i = skipSource d skipRatio j + 1 := by
    simpa using hi
  omega

/-- From 3.2 s on, the shift is not defined. -/
theorem queueConverted_eq_none {F : Type} (h : 32 ≤ queuedTenths queuedSize rate)
    (discardedOutputFrames : BitVec 32) (buffer : ℕ → F) :
    queueConverted rate discardedOutputFrames queuedSize lenCvt buffer = none := by
  have hskip : skipFactor queuedSize rate ≠ 0 := by
    intro h0
    rw [← @toNat_skipFactor rate, h0] at h
    exact absurd h (by decide)
  unfold queueConverted
  dsimp only
  rw [if_neg hskip, toNat_skipFactor, if_pos h, ite_self]

variable (hc : Converted rate outputRate lenCvt)
include hc

theorem toNat_samplesToQueue :
    (outputChannels * (duplicatedInputFrames * outputRate / rate) / 2).toNat =
      discardedFrames rate outputRate := by
  have hlong := hc.long
  have hnonneg := hc.nonneg
  rw [BitVec.toNat_udiv, BitVec.toNat_mul, toNat_discarded,
    show outputChannels.toNat = 2 from rfl, show (2 : BitVec 32).toNat = 2 from rfl]
  omega

theorem toNat_numBytesToQueue : (lenCvt - outputChannels *
    (duplicatedInputFrames * outputRate / rate) * BitVec.ofNat 32 sizeofFloat).toNat =
      8 * (lenCvt.toNat / 8 - discardedFrames rate outputRate) := by
  have hlong := hc.long
  have hnonneg := hc.nonneg
  have hwhole := hc.whole
  rw [BitVec.toNat_sub, BitVec.toNat_mul, BitVec.toNat_mul, toNat_discarded,
    show outputChannels.toNat = 2 from rfl, show (BitVec.ofNat 32 sizeofFloat).toNat = 4 from rfl]
  omega

/-- Nothing is skipped. -/
theorem queueConverted_iff_of_zero {F : Type} (hrate : rate ≠ 0)
    (h0 : queuedTenths queuedSize rate = 0) (buffer : ℕ → F) :
    (∃ queued, queueConverted rate (duplicatedInputFrames * outputRate / rate) queuedSize lenCvt
      buffer = some queued ∧ WholeFrames queued lenCvt) ↔ 2 ∣ discardedFrames rate outputRate := by
  have hskip : skipFactor queuedSize rate = 0 :=
    BitVec.eq_of_toNat_eq (toNat_skipFactor.trans h0)
  unfold queueConverted
  rw [if_neg hrate]
  dsimp only
  rw [if_pos hskip]
  constructor
  · rintro ⟨queued, hq, hframes⟩
    obtain rfl := Option.some.inj hq
    have heven := hframes.offset
    dsimp only at heven
    rwa [toNat_samplesToQueue hc] at heven
  · intro heven
    refine ⟨_, rfl, ?_, ?_, by simp⟩
    · dsimp only
      rwa [toNat_samplesToQueue hc]
    · dsimp only
      rw [toNat_numBytesToQueue hc]
      exact Nat.dvd_mul_right _ _

/-- Frames are skipped. -/
theorem queueConverted_iff_of_lt {F : Type} (hrate : rate ≠ 0)
    (h0 : queuedTenths queuedSize rate ≠ 0) (hlt : queuedTenths queuedSize rate < 32)
    (buffer : ℕ → F) :
    (∃ queued, queueConverted rate (duplicatedInputFrames * outputRate / rate) queuedSize lenCvt
      buffer = some queued ∧ WholeFrames queued lenCvt) ↔
        2 ∣ discardedFrames rate outputRate ∧
          8 * ((lenCvt.toNat / 8 - discardedFrames rate outputRate) %
            2 ^ queuedTenths queuedSize rate) < 2 ^ queuedTenths queuedSize rate := by
  have hoffset := toNat_samplesToQueue hc
  have hbytes := toNat_numBytesToQueue hc
  have hskip : skipFactor queuedSize rate ≠ 0 := by
    intro h
    rw [← @toNat_skipFactor rate, h] at h0
    exact h0 rfl
  have hratio : ((1 : BitVec 32) <<< queuedTenths queuedSize rate).toNat =
      2 ^ queuedTenths queuedSize rate := by
    rw [BitVec.toNat_shiftLeft, Nat.shiftLeft_eq, show (1 : BitVec 32).toNat = 1 from rfl,
      one_mul, Nat.mod_eq_of_lt (Nat.pow_lt_pow_right (by omega) hlt)]
  have hpos : 0 < 2 ^ queuedTenths queuedSize rate := Nat.two_pow_pos _
  have hdiv := @eight_dvd_div_iff (lenCvt.toNat / 8 - discardedFrames rate outputRate) _ hpos
  unfold queueConverted
  rw [if_neg hrate]
  dsimp only
  rw [if_neg hskip, toNat_skipFactor, if_neg (not_le.2 hlt)]
  constructor
  · rintro ⟨queued, hq, hframes⟩
    obtain rfl := Option.some.inj hq
    have heven := hframes.offset
    have hrest := hframes.bytes
    dsimp only at heven hrest
    rw [hoffset] at heven
    rw [BitVec.toNat_udiv, hbytes, hratio] at hrest
    exact ⟨heven, hdiv.1 hrest⟩
  · rintro ⟨heven, hrest⟩
    refine ⟨_, rfl, ?_, ?_, ?_⟩
    · dsimp only
      rwa [hoffset]
    · dsimp only
      rw [BitVec.toNat_udiv, hbytes, hratio]
      exact hdiv.2 hrest
    · dsimp only
      intro i hi
      rw [hoffset, BitVec.toNat_udiv, hbytes, hratio] at hi
      have hread := lt_of_mem_reads hratio hpos hi
      have hlong := hc.long
      have hwhole := hc.whole
      unfold sizeofFloat
      omega

/-- **The end of `queue_samples`.** -/
theorem queueConverted_iff {F : Type} (hrate : rate ≠ 0) (buffer : ℕ → F) :
    (∃ queued, queueConverted rate (duplicatedInputFrames * outputRate / rate) queuedSize lenCvt
      buffer = some queued ∧ WholeFrames queued lenCvt) ↔
        Divides rate outputRate lenCvt queuedSize := by
  unfold Divides
  by_cases h0 : queuedTenths queuedSize rate = 0
  · rw [queueConverted_iff_of_zero hc hrate h0, h0]
    simp [Nat.mod_one]
  · rcases Nat.lt_or_ge (queuedTenths queuedSize rate) 32 with hlt | h32
    · rw [queueConverted_iff_of_lt hc hrate h0 hlt]
      simp only [hlt, true_and]
    · rw [queueConverted_eq_none h32]
      simp only [reduceCtorEq, false_and, exists_false, not_lt.2 h32, and_false]

end Whole

/-- A call ends as its end does. -/
theorem exists_queueConverted {F : Type} [Zero F] {build : BitVec 32 → BitVec 32 → Option ℕ}
    {s₀ s : AudioState F} (hs : updateAudioConverter build s₀ = some s)
    {convert : BitVec 32 → (ℕ → F) → Option (BitVec 32 × (ℕ → F))} {lenCvt : BitVec 32}
    (hconvert : ∀ len buffer, ∃ buffer', convert len buffer = some (lenCvt, buffer'))
    (scale : BitVec 16 → ℕ → F) (call : Call) : ∃ buffer : ℕ → F,
    (∃ queued t, queueSamples convert scale s call = some (queued, t) ∧
      WholeFrames queued lenCvt) ↔
        ∃ queued, queueConverted s.sampleRate
          (duplicatedInputFrames * s.outputSampleRate / s.sampleRate) call.queuedSize lenCvt
            buffer = some queued ∧ WholeFrames queued lenCvt := by
  obtain ⟨-, lenMult, rfl⟩ := updateAudioConverter_eq_some hs
  obtain ⟨buffer, hbuffer⟩ := hconvert
    (BitVec.ofNat 32 ((call.samples.length + duplicatedSamples) * sizeofFloat))
    (filled scale { s₀ with
      lenMult
      discardedOutputFrames := duplicatedInputFrames * s₀.outputSampleRate / s₀.sampleRate } call)
  refine ⟨buffer, ?_⟩
  unfold queueSamples
  unfold filled at hbuffer
  simp only [reserve_sampleRate, reserve_discarded, reserve_duplicated] at hbuffer ⊢
  simp only [hbuffer, Option.bind_eq_bind, Option.bind_some]
  constructor
  · rintro ⟨queued, t, hq, hframes⟩
    obtain ⟨queued', hq', hsome⟩ := Option.bind_eq_some_iff.1 hq
    obtain ⟨rfl, -⟩ := Prod.mk.inj (Option.some.inj hsome)
    exact ⟨queued', hq', hframes⟩
  · rintro ⟨queued, hq, hframes⟩
    exact ⟨queued, _, by rw [hq]; rfl, hframes⟩

/-- **Only whole frames are queued** for these rates, lengths and latencies, and for no others. -/
theorem wholeFrames_iff {F : Type} [Zero F] {build : BitVec 32 → BitVec 32 → Option ℕ}
    {s₀ s : AudioState F} (hs : updateAudioConverter build s₀ = some s)
    {convert : BitVec 32 → (ℕ → F) → Option (BitVec 32 × (ℕ → F))} {lenCvt : BitVec 32}
    (hconvert : ∀ len buffer, ∃ buffer', convert len buffer = some (lenCvt, buffer'))
    (hc : Converted s.sampleRate s.outputSampleRate lenCvt) (scale : BitVec 16 → ℕ → F)
    (call : Call) :
    (∃ queued t, queueSamples convert scale s call = some (queued, t) ∧
      WholeFrames queued lenCvt) ↔
        Divides s.sampleRate s.outputSampleRate lenCvt call.queuedSize := by
  obtain ⟨h0, lenMult, rfl⟩ := updateAudioConverter_eq_some hs
  obtain ⟨buffer, hiff⟩ := exists_queueConverted hs hconvert scale call
  exact hiff.trans (queueConverted_iff hc h0 buffer)

/-- The state behind `set_frequency(rate)`. -/
def atRate (rate : BitVec 32) : AudioState ℚ where
  sampleRate := rate
  outputSampleRate := 48000
  discardedOutputFrames := duplicatedInputFrames * 48000 / rate
  lenMult := 2
  swapSize := 0
  swapBuffer := fun _ => 0
  duplicatedSampleBuffer := fun _ => 0

/-- Six frames are left out for the rate 32000. -/
theorem wholeFrames_iff_atRate : ∃ queued t,
    queueSamples (fun _ buffer => some (80, buffer)) floatOf (atRate 32000) fiveFrames =
      some (queued, t) ∧ WholeFrames queued 80 := by
  have hs : setFrequency (fun _ _ => some 2) 32000 (AudioState.init : AudioState ℚ) =
      some (atRate 32000) := rfl
  exact (wholeFrames_iff hs (fun _ buffer => ⟨buffer, rfl⟩) ⟨by decide, by decide, by decide⟩
    floatOf fiveFrames).2 (by decide)

/-- **Seven frames are left out** for the rate 27000: the queue begins with a right channel. -/
theorem not_wholeFrames : setFrequency (fun _ _ => some 2) 27000 (AudioState.init : AudioState ℚ) =
    some (atRate 27000) ∧ Converted 27000 48000 80 ∧
    ¬ ∃ queued t, queueSamples (fun _ buffer => some (80, buffer)) floatOf (atRate 27000)
      fiveFrames = some (queued, t) ∧ WholeFrames queued 80 := by
  have hs : setFrequency (fun _ _ => some 2) 27000 (AudioState.init : AudioState ℚ) =
      some (atRate 27000) := rfl
  have hc : Converted 27000 48000 80 := ⟨by decide, by decide, by decide⟩
  refine ⟨hs, hc, fun h => ?_⟩
  obtain ⟨buffer, hiff⟩ := exists_queueConverted hs (fun _ buffer => ⟨buffer, rfl⟩) floatOf
    fiveFrames
  have hdivides := (queueConverted_iff hc (by decide) buffer).1 (hiff.1 h)
  revert hdivides
  decide

end Audio
