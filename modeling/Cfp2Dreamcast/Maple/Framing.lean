import Cfp2Dreamcast.Checks.Harvest
import Cfp2Dreamcast.Maple.Sends

/-!
# The framing of the replies

The replies of `mie_probe_reply` and the fixed ones of `maple_reply` are Maple frames
to the byte. The harvested ones are what the scripts made of a capture: the
enumeration blobs are cut to the declared length, the ACK blobs are dumps of 64 bytes
whatever they declare.
-/

namespace Cfp2Dreamcast

open Program Memory

/-- The dumps of a capture: the first reply to each subcommand, and the reply to each
JVS command. -/
structure Capture where
  ack : ℕ → List UInt8
  raw : ℕ → List UInt8
  ack_length : ∀ sub, (ack sub).length = 64
  raw_length : ∀ cmd, (raw cmd).length = 64

/-- The blobs of the build are what the scripts wrote for the capture. -/
structure Capture.Builds (c : Capture) (d : Embedded) : Prop where
  sub01 : d.mieSub01 = c.ack 0x01
  sub13 : d.mieSub13 = c.ack 0x13
  sub17 : d.mieSub17 = c.ack 0x17
  sub27 : d.mieSub27 = c.ack 0x27
  sub31 : d.mieSub31 = c.ack 0x31
  subff : d.mieSubff = c.ack 0xff
  jvsf1 : jvsBlob 0xf1 (c.raw 0xf1) = some d.mieJvsf1
  jvs10 : jvsBlob 0x10 (c.raw 0x10) = some d.mieJvs10
  jvs11 : jvsBlob 0x11 (c.raw 0x11) = some d.mieJvs11
  jvs12 : jvsBlob 0x12 (c.raw 0x12) = some d.mieJvs12
  jvs13 : jvsBlob 0x13 (c.raw 0x13) = some d.mieJvs13
  jvs14 : jvsBlob 0x14 (c.raw 0x14) = some d.mieJvs14

/-- The dump that the answer to a subcommand is made of, if it is, declares what it
holds: an ACK dump 15 words, an enumeration dump no more than that. -/
def Capture.Exact (c : Capture) (pending sub : ℕ) : Prop :=
  match sub with
  | 0x01 => wordCount (c.ack 0x01) = 15
  | 0x13 => wordCount (c.ack 0x13) = 15
  | 0x17 | 0x19 | 0x21 => wordCount (c.ack 0x17) = 15
  | 0x27 => wordCount (c.ack 0x27) = 15
  | 0x31 => wordCount (c.ack 0x31) = 15
  | 0xff => wordCount (c.ack 0xff) = 15
  | 0x15 => pending ∈ [0xf1, 0x11, 0x12, 0x13, 0x14] → wordCount (c.raw pending) ≤ 15
  | _ => True

/-- A frame with the sender and the recipient of the request exchanged. -/
structure ProbeFrame (fh : ℕ) (f : List UInt8) : Prop where
  frame : IsFrame f
  sender : f[1]? = some (UInt8.ofNat (fh / 2 ^ 16))
  recipient : f[2]? = some (UInt8.ofNat (fh / 2 ^ 8))

/-- The bytes are the frames of one reply and nothing else. -/
def ExactlyFramed (x : Descriptor) (bs : List UInt8) : Prop :=
  if x.Mie then IsFrame bs
  else ∃ fs : List (List UInt8), bs = fs.flatten ∧ (∀ f ∈ fs, ProbeFrame x.header f) ∧
    (x.header &&& 0xff = 0x80 → x.payload 1 ≠ 0xff →
      (fs.headD []).drop 4 = wordBytes (x.chunkSum % 256))

theorem ofNat_congr {m n : ℕ} (h : m % 256 = n % 256) : UInt8.ofNat m = UInt8.ofNat n :=
  UInt8.toNat_inj.1 (by rw [UInt8.toNat_ofNat', UInt8.toNat_ofNat']; exact h)

/-- The fields of a header. -/
theorem probeHdr_fields {resp : ℕ} (hresp : resp < 256) (fh n : ℕ) :
    probeHdr fh ||| resp ||| (n <<< 24) =
      resp + fh / 2 ^ 16 % 2 ^ 8 * 2 ^ 8 + fh / 2 ^ 8 % 2 ^ 8 * 2 ^ 16 + n * 2 ^ 24 := by
  have hbyte : ∀ k, (fh >>> k) &&& 0xff = fh / 2 ^ k % 2 ^ 8 := fun k => by
    rw [Nat.shiftRight_eq_div_pow]
    exact and_low _ 8
  rw [probeHdr, hbyte, hbyte, Nat.or_comm _ resp, ← Nat.or_assoc, Nat.shiftLeft_eq,
    Nat.shiftLeft_eq, Nat.shiftLeft_eq, or_high_eq_add (k := 8) (by omega),
    or_high_eq_add (k := 16) (by omega), or_high_eq_add (k := 24) (by omega)]

theorem frameBytes_eq {resp : ℕ} (hresp : resp < 256) (fh n : ℕ) (payload : List UInt8) :
    frameBytes resp fh n payload = UInt8.ofNat resp :: UInt8.ofNat (fh / 2 ^ 16) ::
      UInt8.ofNat (fh / 2 ^ 8) :: UInt8.ofNat n :: payload := by
  rw [frameBytes, wordBytes, probeHdr_fields hresp]
  have hs : fh / 2 ^ 16 % 2 ^ 8 = fh / 2 ^ 16 % 256 := rfl
  have hr : fh / 2 ^ 8 % 2 ^ 8 = fh / 2 ^ 8 % 256 := rfl
  have hs' := Nat.mod_lt (fh / 2 ^ 16) (by decide : 0 < 256)
  have hr' := Nat.mod_lt (fh / 2 ^ 8) (by decide : 0 < 256)
  rw [hs, hr]
  generalize fh / 2 ^ 16 = sender at *
  generalize fh / 2 ^ 8 = recipient at *
  have h0 : UInt8.ofNat (resp + sender % 256 * 2 ^ 8 + recipient % 256 * 2 ^ 16 + n * 2 ^ 24) =
      UInt8.ofNat resp := ofNat_congr (by omega)
  have h1 : UInt8.ofNat ((resp + sender % 256 * 2 ^ 8 + recipient % 256 * 2 ^ 16 +
      n * 2 ^ 24) / 2 ^ 8) = UInt8.ofNat sender := ofNat_congr (by omega)
  have h2 : UInt8.ofNat ((resp + sender % 256 * 2 ^ 8 + recipient % 256 * 2 ^ 16 +
      n * 2 ^ 24) / 2 ^ 16) = UInt8.ofNat recipient := ofNat_congr (by omega)
  have h3 : UInt8.ofNat ((resp + sender % 256 * 2 ^ 8 + recipient % 256 * 2 ^ 16 +
      n * 2 ^ 24) / 2 ^ 24) = UInt8.ofNat n := ofNat_congr (by omega)
  rw [h0, h1, h2, h3]
  rfl

theorem probeFrame_frameBytes {resp n : ℕ} (hresp : resp < 256) (hn : n < 256) (fh : ℕ)
    {payload : List UInt8} (hpayload : payload.length = n * 4) :
    ProbeFrame fh (frameBytes resp fh n payload) := by
  rw [frameBytes_eq hresp]
  refine ⟨?_, rfl, rfl⟩
  have hcount : wordCount (UInt8.ofNat resp :: UInt8.ofNat (fh / 2 ^ 16) ::
      UInt8.ofNat (fh / 2 ^ 8) :: UInt8.ofNat n :: payload) = n :=
    (UInt8.toNat_ofNat').trans (Nat.mod_eq_of_lt hn)
  rw [IsFrame, hcount]
  simp only [List.length_cons]
  omega

/-- Every reply of `mie_probe_reply` is exactly framed. -/
theorem probeAnswer_framed {x : Descriptor} (hmie : ¬ x.Mie) :
    ExactlyFramed x (probeAnswer (x.header &&& 0xff) x) := by
  rw [ExactlyFramed, if_neg hmie]
  generalize x.header &&& 0xff = cmd
  have hone : ∀ resp < 256, frameBytes resp x.header 0 [] =
      [frameBytes resp x.header 0 []].flatten ∧
        ∀ f ∈ [frameBytes resp x.header 0 []], ProbeFrame x.header f := by
    refine fun resp hresp => ⟨(List.append_nil _).symm, fun f hf => ?_⟩
    obtain rfl := List.mem_singleton.1 hf
    exact probeFrame_frameBytes hresp (by decide) _ rfl
  by_cases h80 : cmd = 0x80
  · subst h80
    by_cases hff : x.payload 1 = 0xff
    · refine ⟨_, ?_, (hone 0x07 (by decide)).2, fun _ h => absurd hff h⟩
      exact (if_pos hff).trans (hone 0x07 (by decide)).1
    · refine ⟨[frameBytes 0x80 x.header 1 (wordBytes (x.chunkSum % 256)),
        frameBytes 0x07 x.header 0 []], ?_, fun f hf => ?_, fun _ _ => rfl⟩
      · refine (if_neg hff).trans ?_
        simp only [List.flatten_cons, List.flatten_nil, List.append_nil]
      · rcases List.mem_cons.1 hf with rfl | hf
        · exact probeFrame_frameBytes (by decide) (by decide) _ rfl
        · exact (hone 0x07 (by decide)).2 f hf
  by_cases h82 : cmd = 0x82
  · subst h82
    refine ⟨[frameBytes 0x83 x.header 7 (mieId48.take 28),
      frameBytes 0x83 x.header 5 ((mieId48.drop 28).take 20)], ?_, fun f hf => ?_,
      fun h => absurd h (by decide)⟩
    · simp only [List.flatten_cons, List.flatten_nil, List.append_nil]
      rfl
    · rcases List.mem_cons.1 hf with rfl | hf
      · exact probeFrame_frameBytes (by decide) (by decide) _ (by decide)
      · obtain rfl := List.mem_singleton.1 hf
        exact probeFrame_frameBytes (by decide) (by decide) _ (by decide)
  have hlast : ∀ resp < 256, probeAnswer cmd x = frameBytes resp x.header 0 [] →
      ∃ fs : List (List UInt8), probeAnswer cmd x = fs.flatten ∧
        (∀ f ∈ fs, ProbeFrame x.header f) ∧
          (cmd = 0x80 → x.payload 1 ≠ 0xff →
            (fs.headD []).drop 4 = wordBytes (x.chunkSum % 256)) := by
    intro resp hresp h
    exact ⟨_, h.trans (hone resp hresp).1, (hone resp hresp).2, fun h => absurd h h80⟩
  by_cases h1 : cmd = 0x01
  · subst h1
    exact hlast 0x05 (by decide) rfl
  by_cases h2 : cmd = 0x02
  · subst h2
    exact hlast 0x06 (by decide) rfl
  refine hlast 0x07 (by decide) (probeAnswer_other ?_ x)
  simp only [List.mem_cons, List.not_mem_nil, or_false, not_or]
  exact ⟨h1, h2, h80, h82⟩

theorem isFrame_dump {b : List UInt8} (hb : b.length = 64) : IsFrame b ↔ wordCount b = 15 := by
  rw [IsFrame, hb]
  omega

theorem isFrame_digital (raw raw2 : UInt16) : IsFrame (digitalFrame raw raw2) := by
  rw [IsFrame, digitalFrame_length]
  rfl

theorem isFrame_ack {c : Capture} {b : List UInt8} {sub : ℕ} (hb : b = c.ack sub) :
    IsFrame b ↔ wordCount (c.ack sub) = 15 := by
  subst hb
  exact isFrame_dump (c.ack_length sub)

theorem isFrame_raw {c : Capture} {cmd : ℕ} {blob : List UInt8}
    (h : jvsBlob cmd (c.raw cmd) = some blob) (hcmd : cmd ∈ [0xf1, 0x11, 0x12, 0x13, 0x14]) :
    IsFrame blob ↔ (cmd ∈ [0xf1, 0x11, 0x12, 0x13, 0x14] → wordCount (c.raw cmd) ≤ 15) := by
  have hne : cmd ≠ 0x10 := by
    rintro rfl
    revert hcmd
    decide
  rw [isFrame_jvsBlob (c.raw_length cmd) h]
  exact ⟨fun h _ => h hne, fun h _ => h hcmd⟩

variable {c : Capture} {d : Embedded}

/-- The answer to a receive. -/
theorem receive_frame_iff (hbuild : c.Builds d) {pending : ℕ} {a : Answer}
    (ha : mieAnswer d pending 0x15 = some a) (st : Static → ℕ) :
    IsFrame (a.bytes d st) ↔ c.Exact pending 0x15 := by
  unfold mieAnswer at ha
  simp only at ha
  change IsFrame (a.bytes d st) ↔ (pending ∈ [0xf1, 0x11, 0x12, 0x13, 0x14] → _)
  split at ha
  · cases ha
    exact isFrame_raw hbuild.jvsf1 (by decide)
  · cases ha
    refine iff_of_true ?_ fun h => absurd h (by decide)
    exact (isFrame_jvsBlob (c.raw_length 0x10) hbuild.jvs10).2 fun h => absurd rfl h
  · cases ha
    exact isFrame_raw hbuild.jvs11 (by decide)
  · cases ha
    exact isFrame_raw hbuild.jvs12 (by decide)
  · cases ha
    exact isFrame_raw hbuild.jvs13 (by decide)
  · cases ha
    exact isFrame_raw hbuild.jvs14 (by decide)
  · rename_i hf1 h10 h11 h12 h13 h14
    cases ha
    refine iff_of_true (isFrame_digital _ _) fun h => ?_
    simp only [List.mem_cons, List.not_mem_nil, or_false] at h
    rcases h with h | h | h | h | h
    · exact absurd h hf1
    · exact absurd h h11
    · exact absurd h h12
    · exact absurd h h13
    · exact absurd h h14

/-- The DIP byte is not the word count. -/
theorem isFrame_dip (hbuild : c.Builds d) (vga : Bool) :
    IsFrame (dipBytes d vga) ↔ wordCount (c.ack 0x31) = 15 := by
  rw [← isFrame_ack hbuild.sub31]
  cases vga with
  | true => exact Iff.rfl
  | false =>
      change IsFrame (d.mieSub31.set 10 _) ↔ _
      rw [IsFrame, IsFrame, List.length_set,
        wordCount_congr (List.getElem?_set_ne (by decide))]

/-- The answer to a MIE subcommand is one frame exactly when its dump is exact. -/
theorem mieAnswer_frame_iff (hbuild : c.Builds d) {pending sub : ℕ} {a : Answer}
    (ha : mieAnswer d pending sub = some a) (st : Static → ℕ) :
    IsFrame (a.bytes d st) ↔ c.Exact pending sub := by
  by_cases hsub : sub = 0x15
  · subst hsub
    exact receive_frame_iff hbuild ha st
  unfold mieAnswer at ha
  split at ha
  · cases ha
    exact iff_of_true (isFrame_digital _ _) trivial
  · exact absurd rfl hsub
  · cases ha
    refine iff_of_true ?_ trivial
    rw [Answer.bytes, IsFrame, List.length_append, d.eeprom_length]
    rfl
  · cases ha
    exact isFrame_ack hbuild.sub01
  · cases ha
    exact isFrame_ack hbuild.sub13
  · cases ha
    exact isFrame_ack hbuild.sub17
  · cases ha
    exact isFrame_ack hbuild.sub17
  · cases ha
    exact isFrame_ack hbuild.sub17
  · cases ha
    exact isFrame_ack hbuild.sub27
  · cases ha
    exact isFrame_dip hbuild _
  · cases ha
    exact isFrame_ack hbuild.subff
  · cases ha
    exact iff_of_true (show IsFrame eepromAck by decide) trivial
  · cases ha

theorem answer_framed_iff (hbuild : c.Builds d) {pending : ℕ} {x : Descriptor} {a : Answer}
    (ha : x.answer d pending = some a) (st : Static → ℕ) :
    ExactlyFramed x (a.bytes d st) ↔ (x.Mie → c.Exact (x.latch pending) x.sub) := by
  unfold Descriptor.answer at ha
  by_cases hmie : x.Mie
  · rw [if_pos hmie] at ha
    rw [ExactlyFramed, if_pos hmie, mieAnswer_frame_iff hbuild ha st]
    exact ⟨fun h _ => h, fun h => h hmie⟩
  · rw [if_neg hmie] at ha
    cases ha
    exact iff_of_true (probeAnswer_framed hmie) fun h => absurd h hmie

/-- The bytes of a block are determined by it. -/
theorem block_inj {b : ℕ} {xs ys : List UInt8} (h : block b xs = block b ys) : xs = ys := by
  refine List.ext_getElem? fun i => ?_
  have := congrFun h (b + i)
  rwa [block_add, block_add] at this

/-- The bytes that the trace leaves are the frames of one reply at the receive address. -/
def LeavesFrames (x : Descriptor) (rcv : ℕ) (tr : List (Event shimSig)) : Prop :=
  ∃ bs, laidOut (repliesOf tr) = block (p2Addr rcv) bs ∧ ExactlyFramed x bs

/-- The reply to an answered frame is exactly framed, in every run of the service,
exactly when the dump behind it is exact. -/
theorem reply_framed_iff (hbuild : c.Builds d) {W : World Mem} {s : State Mem} {first : Bool}
    {addr rcv : ℕ} (hlo : 0x0c000000 ≤ addr) (hhi : addr < 0x0f000000) (hw : inWindow rcv)
    {a : Answer}
    (ha : (descriptorAt s.mem addr).answer d (s.statics .pendingJvs) = some a) :
    (∀ tr s', Exec (flatMachine W) (serveFrame d first addr rcv) s tr (.ret ()) s' →
      LeavesFrames (descriptorAt s.mem addr) rcv tr) ↔
        ((descriptorAt s.mem addr).Mie →
          c.Exact ((descriptorAt s.mem addr).latch (s.statics .pendingJvs))
            (descriptorAt s.mem addr).sub) := by
  have hsends : Sends W (serveFrame d first addr rcv) s (p2Addr rcv) (a.bytes d) :=
    sends_serveFrame d hlo hhi hw ha
  constructor
  · intro hall
    obtain ⟨tr, s', h⟩ := hsends.total
    obtain ⟨bs, hlaid, hframed⟩ := hall tr s' h
    rcases hsends.sound h with ⟨-, hlaid'⟩ | ⟨ho, -⟩
    · obtain rfl := block_inj (hlaid.symm.trans hlaid')
      exact (answer_framed_iff hbuild ha _).1 hframed
    · cases ho
  · intro hexact tr s' h
    rcases hsends.sound h with ⟨-, hlaid⟩ | ⟨ho, -⟩
    · exact ⟨_, hlaid, (answer_framed_iff hbuild ha _).2 hexact⟩
    · cases ho

/-- A dump of a JVS reply: the Maple header, the sync and what follows it. -/
def sampleDump (n : UInt8) (body : List UInt8) : List UInt8 :=
  (([0x87, 0x00, 0x20, n] ++ List.replicate 22 0 ++ 0xe0 :: body) ++ List.replicate 64 0).take 64

theorem length_sampleDump (n : UInt8) (body : List UInt8) : (sampleDump n body).length = 64 := by
  simp only [sampleDump, List.length_take, List.length_append, List.length_replicate]
  omega

/-- The enumeration as the signatures of the script have it; the ACK to 0x13 declares the
payload that a dump holds, the other ones none. -/
def sampleCapture : Capture where
  ack
    | 0x13 => [0x87, 0x00, 0x20, 0x0f] ++ (List.range 60).map UInt8.ofNat
    | _ => [0x87, 0x00, 0x20, 0x00] ++ List.replicate 60 0
  raw
    | 0xf1 => sampleDump 8 [0x00, 0x04, 0x01, 0x01, 0x05, 0x0b]
    | 0x10 => sampleDump 0x17 ([0x00, 0x3d, 0x01, 0x01] ++ boardId)
    | 0x11 => sampleDump 8 [0x00, 0x04, 0x01, 0x01, 0x11, 0x17]
    | 0x12 => sampleDump 8 [0x00, 0x04, 0x01, 0x01, 0x20, 0x26]
    | 0x13 => sampleDump 8 [0x00, 0x04, 0x01, 0x01, 0x10, 0x16]
    | 0x14 => sampleDump 12 ([0x00, 0x14, 0x01, 0x01, 0x01, 0x02, 0x0d] ++
        List.replicate 14 0 ++ [0x26])
    | _ => sampleDump 0 []
  ack_length sub := by
    split <;> rfl
  raw_length cmd := by
    split <;> exact length_sampleDump _ _

def sampleBlob (cmd : ℕ) : List UInt8 := (jvsBlob cmd (sampleCapture.raw cmd)).getD []

def sampleEmbedded : Embedded where
  eepromImg := List.replicate 128 0
  mieSub01 := sampleCapture.ack 0x01
  mieSub13 := sampleCapture.ack 0x13
  mieSub17 := sampleCapture.ack 0x17
  mieSub27 := sampleCapture.ack 0x27
  mieSub31 := sampleCapture.ack 0x31
  mieSubff := sampleCapture.ack 0xff
  mieJvsf1 := sampleBlob 0xf1
  mieJvs10 := sampleBlob 0x10
  mieJvs11 := sampleBlob 0x11
  mieJvs12 := sampleBlob 0x12
  mieJvs13 := sampleBlob 0x13
  mieJvs14 := sampleBlob 0x14
  eeprom_length := Embedded.blank.eeprom_length
  sub31_length := by decide
  fits := by decide +kernel

theorem sampleCapture_builds : sampleCapture.Builds sampleEmbedded := by
  have hblob : ∀ cmd ∈ [0xf1, 0x10, 0x11, 0x12, 0x13, 0x14],
      jvsBlob cmd (sampleCapture.raw cmd) = some (sampleBlob cmd) := by decide +kernel
  exact ⟨rfl, rfl, rfl, rfl, rfl, rfl, hblob _ (by decide), hblob _ (by decide),
    hblob _ (by decide), hblob _ (by decide), hblob _ (by decide), hblob _ (by decide)⟩

/-- A MIE frame with a subcommand. -/
def mieFrame (sub : ℕ) : State Mem :=
  { padsInit with mem := ofWords [(0x0c100008, 0x2086), (0x0c10000c, sub)] }

theorem reply_framed_sample :
    ∃ tr s', Exec (flatMachine startPads.world)
      (serveFrame sampleEmbedded true 0x0c100000 0x0c200000) (mieFrame 0x13) tr (.ret ()) s' ∧
        LeavesFrames (descriptorAt (mieFrame 0x13).mem 0x0c100000) 0x0c200000 tr := by
  have hsub : (descriptorAt (mieFrame 0x13).mem 0x0c100000).sub = 0x13 := by decide +kernel
  have ha : (descriptorAt (mieFrame 0x13).mem 0x0c100000).answer sampleEmbedded
      ((mieFrame 0x13).statics .pendingJvs) = some (.blob sampleEmbedded.mieSub13) := by
    decide +kernel
  have hsends : Sends startPads.world (serveFrame sampleEmbedded true 0x0c100000 0x0c200000)
      (mieFrame 0x13) (p2Addr 0x0c200000)
      ((Answer.blob sampleEmbedded.mieSub13).bytes sampleEmbedded) :=
    sends_serveFrame sampleEmbedded (by decide) (by decide) (by decide) ha
  obtain ⟨tr, s', h⟩ := hsends.total
  refine ⟨tr, s', h, (reply_framed_iff sampleCapture_builds (by decide) (by decide) (by decide)
    ha).2 (fun _ => ?_) tr s' h⟩
  rw [hsub]
  change wordCount (sampleCapture.ack 0x13) = 15
  decide

/-- An ACK dump that declares no payload is stored with all its 64 bytes. -/
theorem ack_overruns :
    ¬ ∀ (c : Capture) (d : Embedded), c.Builds d → ∀ (W : World Mem) (s : State Mem)
      (first : Bool) (addr rcv : ℕ) (tr : List (Event shimSig)) (s' : State Mem),
        0x0c000000 ≤ addr → addr < 0x0f000000 → inWindow rcv →
          Exec (flatMachine W) (serveFrame d first addr rcv) s tr (.ret ()) s' →
            LeavesFrames (descriptorAt s.mem addr) rcv tr := by
  intro hclaim
  have ha : (descriptorAt (mieFrame 0x01).mem 0x0c100000).answer sampleEmbedded
      ((mieFrame 0x01).statics .pendingJvs) = some (.blob sampleEmbedded.mieSub01) := by
    decide +kernel
  have hsends : Sends startPads.world (serveFrame sampleEmbedded true 0x0c100000 0x0c200000)
      (mieFrame 0x01) (p2Addr 0x0c200000)
      ((Answer.blob sampleEmbedded.mieSub01).bytes sampleEmbedded) :=
    sends_serveFrame sampleEmbedded (by decide) (by decide) (by decide) ha
  obtain ⟨tr, s', h⟩ := hsends.total
  obtain ⟨bs, hlaid, hframed⟩ := hclaim _ _ sampleCapture_builds _ _ _ _ _ _ _ (by decide)
    (by decide) (by decide) h
  rcases hsends.sound h with ⟨-, hlaid'⟩ | ⟨ho, -⟩
  · obtain rfl := block_inj (hlaid.symm.trans hlaid')
    have hexact := (answer_framed_iff sampleCapture_builds ha _).1 hframed (by decide +kernel)
    have hsub : (descriptorAt (mieFrame 0x01).mem 0x0c100000).sub = 0x01 := by decide +kernel
    rw [hsub] at hexact
    change wordCount (sampleCapture.ack 0x01) = 15 at hexact
    revert hexact
    decide
  · cases ho

end Cfp2Dreamcast
