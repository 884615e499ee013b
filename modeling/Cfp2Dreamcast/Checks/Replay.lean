import Cfp2Dreamcast.Checks.Harvest
import Cfp2Dreamcast.Maple.Transport

/-!
# Record and replay

The enumeration replies are recorded from a console by `extract_jvs_replies.py` and given
back by the shim when the game transmits the same JVS commands. The packet inside every
reply that the game receives, recorded or live, passes the check of the script, and a
recorded one is what the console had sent.
-/

namespace Cfp2Dreamcast

open Program Memory

/-- `SIGS`: the JVS commands of the enumeration. -/
def enumCommands : List ℕ := [0xf1, 0x10, 0x11, 0x12, 0x13, 0x14]

/-- The packet in a reply ends with its checksum. -/
def PacketOk (b : List UInt8) : Prop :=
  b[harvestCsum b]? = some (harvestSum b (b.idxOf 0xe0) (harvestCsum b))

instance (b : List UInt8) : Decidable (PacketOk b) := inferInstanceAs (Decidable (_ = _))

/-- The reply shows what the dump recorded: all of it, or for the board ID, which does not
fit a dump, up to the 33 letters that do. -/
def Recorded (cmd : ℕ) (raw blob : List UInt8) : Prop :=
  if cmd = 0x10 then blob.take (raw.idxOf 0xe0 + 38) = raw.take (raw.idxOf 0xe0 + 38)
  else blob <+: raw

section Blobs

variable {cmd : ℕ} {raw blob : List UInt8}

theorem packetOk_digitalFrame (raw raw2 : UInt16) : PacketOk (digitalFrame raw raw2) := by
  have h := digitalFrame_shows raw raw2
  rw [PacketOk, h.csum, h.sum, h.csum]

/-- A reply that begins as the dump does has its packet in the same place. -/
theorem idxOf_of_take_eq {n : ℕ} (h : blob.take n = raw.take n) (hmem : 0xe0 ∈ raw.take n) :
    blob.idxOf 0xe0 = raw.idxOf 0xe0 := by
  rw [← List.take_append_drop n blob, ← List.take_append_drop n raw, h,
    List.idxOf_append_of_mem hmem, List.idxOf_append_of_mem hmem]

theorem mem_take_of_idxOf_lt {n : ℕ} (hlt : raw.idxOf 0xe0 < n)
    (hmem : raw.idxOf 0xe0 < raw.length) : 0xe0 ∈ raw.take n := by
  rw [List.mem_take_iff_getElem]
  exact ⟨raw.idxOf 0xe0, by omega, List.getElem_idxOf hmem⟩

theorem packetOk_of_sum {e0 : ℕ} (len : UInt8) (hsync : blob.idxOf 0xe0 = e0)
    (hlen : blob[e0 + 2]? = some len)
    (hsum : blob[e0 + 2 + len.toNat]? = some (harvestSum blob e0 (e0 + 2 + len.toNat))) :
    PacketOk blob := by
  have hcsum : harvestCsum blob = e0 + 2 + len.toNat := by
    rw [harvestCsum, hsync, List.getD_eq_getElem?_getD, hlen, Option.getD_some]
  rw [PacketOk, hcsum, hsync]
  exact hsum

/-- The blob of a short reply. -/
theorem natural_packetOk {len : UInt8} (hlen : raw[raw.idxOf 0xe0 + 2]? = some len)
    (hsum : (natural raw)[raw.idxOf 0xe0 + 2 + len.toNat]? =
      some (harvestSum raw (raw.idxOf 0xe0) (raw.idxOf 0xe0 + 2 + len.toNat))) :
    PacketOk (natural raw) := by
  have hlong := (List.getElem?_eq_some_iff.1 hsum).1
  obtain ⟨n, hn⟩ : ∃ n, (wordCount raw + 1) * 4 = n := ⟨_, rfl⟩
  simp only [natural, hn] at hsum hlong ⊢
  have hlt : raw.idxOf 0xe0 + 2 + len.toNat < n ∧ raw.idxOf 0xe0 + 2 + len.toNat < raw.length := by
    rw [List.length_take] at hlong
    omega
  have hmem := @mem_take_of_idxOf_lt raw n (by omega) (by omega)
  have hsync : (raw.take n).idxOf 0xe0 = raw.idxOf 0xe0 :=
    idxOf_of_take_eq (by rw [List.take_take, Nat.min_self]) hmem
  refine packetOk_of_sum len hsync ?_ ?_
  · rwa [List.getElem?_take_of_lt (by omega)]
  · rw [hsum, harvestSum, harvestSum, List.take_take, Nat.min_eq_left hlt.1.le]

theorem boardId_length : boardId.length = 57 := by decide

theorem boardBytes_eq {body : ℕ} (hbody : body ≤ raw.length) :
    ∃ rest, boardBytes raw body = raw.take body ++ (boardId ++ rest) := by
  have htake : (raw.take body).length = body := List.length_take_of_le hbody
  have hhead : ∀ xs : List UInt8, (raw.take body ++ xs).take body = raw.take body := by
    intro xs
    rw [List.take_append_of_le_length (by rw [htake]), List.take_take, Nat.min_self]
  rw [boardBytes, setSlice, setSlice, List.take_zero, List.nil_append, hhead, List.append_assoc]
  exact ⟨_, rfl⟩

theorem body_le_length {body csum : ℕ} (hok : BoardOk raw body csum) :
    body + 33 ≤ raw.length := by
  have := congrArg List.length hok.1
  rw [List.length_take, List.length_drop, List.length_take, boardId_length] at this
  omega

/-- The blob of the board ID begins as the dump does. -/
theorem boardBlob_take {e0 csum n : ℕ} (hok : BoardOk raw (e0 + 5) csum) (hn : n ≤ e0 + 38) :
    (boardBlob raw e0 csum).take n = raw.take n := by
  have hlong := body_le_length hok
  obtain ⟨hpre, -, hcsum, -⟩ := hok
  obtain ⟨rest, hrest⟩ := @boardBytes_eq raw (e0 + 5) (by omega)
  have htake : (raw.take (e0 + 5)).length = e0 + 5 := List.length_take_of_le (by omega)
  have hbytes : (boardBytes raw (e0 + 5)).take (e0 + 5 + 33) = raw.take (e0 + 5 + 33) := by
    calc
      _ = (raw.take (e0 + 5) ++ (boardId ++ rest)).take ((raw.take (e0 + 5)).length + 33) := by
        rw [hrest, htake]
      _ = raw.take (e0 + 5) ++ boardId.take 33 := by
        rw [List.take_length_add_append,
          List.take_append_of_le_length (by rw [boardId_length]; decide)]
      _ = raw.take (e0 + 5 + 33) := by
        rw [← hpre]
        exact List.take_add.symm
  have hmin : min n (e0 + 5 + 33) = n := by omega
  rw [boardBlob, boardId_length] at *
  rw [List.take_set_of_le (by omega), List.take_set_of_le (by omega), ← hmin, ← List.take_take,
    hbytes, List.take_take]

/-- The blob of the board ID. -/
theorem boardBlob_packetOk {len : UInt8} (hlen : raw[raw.idxOf 0xe0 + 2]? = some len)
    (hok : BoardOk raw (raw.idxOf 0xe0 + 5) (raw.idxOf 0xe0 + 2 + len.toNat)) :
    PacketOk (boardBlob raw (raw.idxOf 0xe0) (raw.idxOf 0xe0 + 2 + len.toNat)) := by
  have hlong := body_le_length hok
  have htake := @boardBlob_take raw (raw.idxOf 0xe0) _ (raw.idxOf 0xe0 + 38) hok le_rfl
  have hmem := @mem_take_of_idxOf_lt raw (raw.idxOf 0xe0 + 38) (by omega) (by omega)
  refine packetOk_of_sum len (idxOf_of_take_eq htake hmem) ?_ ?_
  · have hget := congrArg (fun bs => bs[raw.idxOf 0xe0 + 2]?) htake
    simp only [List.getElem?_take_of_lt (show raw.idxOf 0xe0 + 2 < raw.idxOf 0xe0 + 38 by omega)]
      at hget
    rw [hget, hlen]
  · obtain ⟨-, -, -, hin⟩ := hok
    rw [boardBlob, List.getElem?_set_self (by simpa using hin), harvestSum, harvestSum,
      List.take_set_of_le le_rfl]

/-- What the script accepts. -/
theorem jvsBlob_ok (h : jvsBlob cmd raw = some blob) : PacketOk blob ∧ Recorded cmd raw blob := by
  obtain ⟨len, hlen, h⟩ := Option.bind_eq_some_iff.1 h
  by_cases hcmd : cmd = 0x10
  · simp only [if_pos hcmd] at h
    split at h
    · next hok =>
      cases h
      rw [Recorded, if_pos hcmd]
      exact ⟨boardBlob_packetOk hlen hok, boardBlob_take hok le_rfl⟩
    · cases h
  · simp only [if_neg hcmd] at h
    split at h
    · next hsum =>
      cases h
      rw [Recorded, if_neg hcmd]
      exact ⟨natural_packetOk hlen hsum, List.take_prefix _ _⟩
    · cases h

end Blobs

/-- The build carries the blob of each command of the enumeration, from its dump. -/
def Harvested (d : Embedded) (dump : ℕ → List UInt8) : Prop :=
  ∀ cmd ∈ enumCommands, ∃ blob, mieAnswer d cmd 0x15 = some (.blob blob) ∧
    jvsBlob cmd (dump cmd) = some blob

section Run

variable {d : Embedded} {dump : ℕ → List UInt8} {hist : List Descriptor}

/-- A receive without a command of the enumeration on the way is a live one. -/
theorem mieAnswer_live {jvs : ℕ} (h : jvs ∉ enumCommands) :
    mieAnswer d jvs 0x15 = some .digital := by
  simp only [enumCommands, List.mem_cons, List.not_mem_nil, or_false, not_or] at h
  obtain ⟨hf1, h10, h11, h12, h13, h14⟩ := h
  unfold mieAnswer
  simp only

/-- What a transfer in the middle of a list is owed. -/
theorem mem_owed {R : List Descriptor → Descriptor → Option Answer} {x : Slot} (hx : x.Start)
    (xs ys : List Slot) :
    (x, R (historyAfter hist xs) x.frame) ∈ owed R hist (xs ++ x :: ys) := by
  induction xs generalizing hist with
  | nil =>
      rw [List.nil_append, owed, if_pos hx]
      exact List.mem_cons_self
  | cons y xs ih =>
      rw [List.cons_append, owed, historyAfter]
      split
      · exact List.mem_cons_of_mem _ ih
      · exact ih

/-- Each reply that is owed is made along a piece of the trace. -/
theorem AllReplied.replied {m : Mem} {st : Static → ℕ} {tr : List (Event shimSig)}
    {ws : List (Slot × Option Answer)} (h : AllReplied d m st tr ws) :
    ∀ w ∈ ws, ∃ before own after, tr = before ++ (own ++ after) ∧
      Replied d m (assigned st before) own w := by
  induction h with
  | nil => exact fun w hw => absurd hw List.not_mem_nil
  | @cons st tr₀ tr tr' w ws _ hw _ ih =>
      intro v hv
      rcases List.mem_cons.1 hv with rfl | hv
      · exact ⟨tr₀, tr, tr', rfl, hw⟩
      · obtain ⟨before, own, after, rfl, hreplied⟩ := ih v hv
        refine ⟨tr₀ ++ tr ++ before, own, after, by simp, ?_⟩
        rwa [assigned_append]

/-- A live reply: it is what the piece of the trace that serves the transfer stores, and it
shows the words of the pads that are in the cache at the end of this piece, the poll of the
frame done. -/
def Live (st : Static → ℕ) (tr : List (Event shimSig)) (x : Slot) (bs : List UInt8) : Prop :=
  ∃ before own after, tr = before ++ (own ++ after) ∧
    (∃ v, own.head? = some ⟨.load32 .head (p2Addr x.addr), v⟩) ∧
    laidOut (repliesOf own) = block (p2Addr x.rcv) bs ∧
    FrameShows bs (dcToJvs (UInt16.ofNat (assigned st (before ++ own) .rawCacheA)))
      (dcToJvs (UInt16.ofNat (assigned st (before ++ own) .rawCacheB)))

variable {W : World Mem} {s s' : State Mem} {rc r : ℤ} {m : Mem} {tr : List (Event shimSig)}
  {slots : List Slot}

/-- Every receive of every run is a packet with its checksum: the recorded one of the JVS
command on the way if that belongs to the enumeration, and otherwise a live one. -/
theorem receives_replay (hd : Harvested d dump) (hrun : TransportRun d W hist s)
    (hcall : Call d W s rc m tr (.ret r) s') (hreq : Requests d hist m slots) :
    ∀ xs x ys, slots = xs ++ x :: ys → x.Start → x.frame.Mie →
      (x.frame.sub = 0x15 ∨ x.frame.sub = 0x33) → ∃ bs,
        (∀ i (hi : i < bs.length), s'.mem (ramCell (x.rcv + i)) = bs[i]) ∧ PacketOk bs ∧
        ∀ jvs, jvs = (onTheWay (historyAfter hist xs)).getD 0xff →
          if x.frame.sub = 0x15 ∧ jvs ∈ enumCommands then
            jvsBlob jvs (dump jvs) = some bs ∧ Recorded jvs (dump jvs) bs
          else Live s.statics tr x bs := by
  rintro xs x ys rfl hstart hmie hsub
  rcases exec_call hrun.pending hcall hreq with ⟨-, hserved⟩ | ⟨ho, -⟩
  swap
  · cases ho
  obtain ⟨before, own, after, htr, hhead, a, bs, ha, hbs, hlaid, hbytes⟩ :=
    hserved.replies.replied _ (mem_owed hstart xs ys)
  refine ⟨bs, hbytes, ?_⟩
  obtain ⟨jvs, hjvs⟩ : ∃ jvs, (onTheWay (historyAfter hist xs)).getD 0xff = jvs := ⟨_, rfl⟩
  have ha : mieAnswer d jvs x.frame.sub = some a := by
    rw [← hjvs, ← ha]
    exact (if_pos hmie).symm
  have hlive : a = .digital → PacketOk bs ∧ Live s.statics tr x bs := by
    rintro rfl
    rw [hbs]
    refine ⟨packetOk_digitalFrame _ _, before, own, after, htr, hhead, hbs ▸ hlaid, ?_⟩
    rw [← assigned_append]
    exact digitalFrame_shows _ _
  rw [hjvs]
  by_cases henum : x.frame.sub = 0x15 ∧ jvs ∈ enumCommands
  · obtain ⟨blob, hblob, hdump⟩ := hd jvs henum.2
    rw [henum.1, hblob] at ha
    cases ha
    obtain rfl : bs = blob := hbs
    refine ⟨(jvsBlob_ok hdump).1, ?_⟩
    rintro _ rfl
    rw [if_pos henum]
    exact ⟨hdump, (jvsBlob_ok hdump).2⟩
  · have hdigital : a = .digital := by
      rcases hsub with hsub | hsub
      · rw [hsub, mieAnswer_live fun h => henum ⟨hsub, h⟩] at ha
        exact (Option.some.inj ha).symm
      · rw [hsub] at ha
        exact (Option.some.inj ha).symm
    refine ⟨(hlive hdigital).1, ?_⟩
    rintro _ rfl
    rw [if_neg henum]
    exact (hlive hdigital).2

end Run

/-! The requests of the configuration. -/

/-- The blob that `shim_cfg_rx` chooses. -/
def cfgBlob (d : Embedded) (pendingCfg : ℕ) : List UInt8 :=
  match pendingCfg with
  | 0x10 => d.mieJvs10
  | 0x11 => d.mieJvs11
  | 0x12 => d.mieJvs12
  | 0x13 => d.mieJvs13
  | 0x14 => d.mieJvs14
  | 0xf1 => d.mieJvsf1
  | _ => d.mieJvsf1

/-- What `shim_cfg_tx` leaves in `pending_cfg`. -/
def shimCfgTx (m : Mem) (payload : ℕ) : ℕ := (m (ramCell payload)).toNat

/-- `shim_cfg_rx`: the bytes from the pointer it returns on. -/
def shimCfgRx (d : Embedded) (pendingCfg : ℕ) : List UInt8 := (cfgBlob d pendingCfg).drop 0x15

/-- The configuration is told what the transport would tell it; a command that is not of the
enumeration is answered like the first one. -/
theorem shimCfgRx_replays {d : Embedded} {dump : ℕ → List UInt8} (hd : Harvested d dump)
    (m : Mem) (payload : ℕ) :
    ∃ cmd blob, cmd = (if shimCfgTx m payload ∈ enumCommands then shimCfgTx m payload else 0xf1) ∧
      mieAnswer d cmd 0x15 = some (.blob blob) ∧ jvsBlob cmd (dump cmd) = some blob ∧
      shimCfgRx d (shimCfgTx m payload) = blob.drop 0x15 := by
  obtain ⟨jvs, hjvs⟩ : ∃ jvs, shimCfgTx m payload = jvs := ⟨_, rfl⟩
  rw [hjvs]
  by_cases henum : jvs ∈ enumCommands
  · obtain ⟨blob, hblob, hdump⟩ := hd jvs henum
    refine ⟨jvs, blob, (if_pos henum).symm, hblob, hdump, ?_⟩
    have hsame : mieAnswer d jvs 0x15 = some (.blob (cfgBlob d jvs)) := by
      simp only [enumCommands, List.mem_cons, List.not_mem_nil, or_false] at henum
      rcases henum with rfl | rfl | rfl | rfl | rfl | rfl <;> rfl
    rw [hsame] at hblob
    cases hblob
    rfl
  · obtain ⟨blob, hblob, hdump⟩ := hd 0xf1 (by decide)
    refine ⟨0xf1, blob, (if_neg henum).symm, hblob, hdump, ?_⟩
    have hother : cfgBlob d jvs = d.mieJvsf1 := by
      simp only [enumCommands, List.mem_cons, List.not_mem_nil, or_false, not_or] at henum
      obtain ⟨hf1, h10, h11, h12, h13, h14⟩ := henum
      unfold cfgBlob
      simp only
    cases hblob
    rw [shimCfgRx, hother]

/-! A sample. -/

/-- Dumps of small replies, the board ID cut off as it is in a capture. -/
def replayDump (cmd : ℕ) : List UInt8 :=
  if cmd = 0x10 then [0x87, 0x00, 0x20, 0x17, 0xe0, 0x00, 0x3d, 0x01, 0x01] ++ boardId.take 33
  else [0x87, 0x00, 0x20, 0x01, 0xe0, 0x00, 0x01, 0x01]

/-- The build with the blobs of these dumps. -/
def replayBuild : Embedded :=
  { Embedded.blank with
    mieJvsf1 := replayDump 0xf1
    mieJvs10 := boardBlob (replayDump 0x10) 4 67
    mieJvs11 := replayDump 0x11
    mieJvs12 := replayDump 0x12
    mieJvs13 := replayDump 0x13
    mieJvs14 := replayDump 0x14
    fits := by decide +kernel }

theorem replayBuild_harvested : Harvested replayBuild replayDump := by
  simp only [Harvested, enumCommands, List.forall_mem_cons, List.not_mem_nil, false_imp_iff,
    implies_true, and_true]
  exact ⟨⟨_, rfl, by decide +kernel⟩, ⟨_, rfl, by decide +kernel⟩, ⟨_, rfl, by decide +kernel⟩,
    ⟨_, rfl, by decide +kernel⟩, ⟨_, rfl, by decide +kernel⟩, ⟨_, rfl, by decide +kernel⟩⟩

/-- The JVS command 0xf1 is transmitted and its reply received, and the buttons are read. -/
def replayList : State Mem :=
  handed 0x0c100000 [(0x0c100000, 0x00000003), (0x0c100004, 0x0c200000), (0x0c100008, 0x2086),
    (0x0c10000c, 0x17), (0x0c100014, 0xf1),
    (0x0c100018, 0x00000001), (0x0c10001c, 0x0c200200), (0x0c100020, 0x2086), (0x0c100024, 0x15),
    (0x0c100028, 0x80000001), (0x0c10002c, 0x0c200300), (0x0c100030, 0x2086), (0x0c100034, 0x33)]

/-- The first reply is the dump, the second one is live: Start is held. -/
theorem receives_replay_sample : ∃ rc m tr r s' x bs, Call replayBuild startPads.world replayList
    rc m tr (.ret r) s' ∧
      (∀ i (hi : i < (replayDump 0xf1).length),
        s'.mem (ramCell (0x0c200200 + i)) = (replayDump 0xf1)[i]) ∧
      (∀ i (hi : i < bs.length), s'.mem (ramCell (0x0c200300 + i)) = bs[i]) ∧
      Live replayList.statics tr x bs ∧ s'.mem (ramCell 0x0c200320) = 0x80 := by
  have hhalted : ((shimMapleSteady replayBuild).run startPads.answer replayList).2.1.halted =
      none := by decide +kernel
  obtain ⟨r, hret⟩ := Outcome.of_not_halted hhalted
  have hcall := startPads.call replayBuild replayList
  rw [hret] at hcall
  have hlist : ListAt (engineLeft replayList) (listBase (engineLeft replayList)) _ :=
    .next (by decide +kernel) (.next (by decide +kernel) (.last (by decide +kernel)))
  have hreq : Requests replayBuild [] (engineLeft replayList) _ :=
    requests_of_layout (by decide +kernel) (by decide +kernel) hlist (by simp) (by decide +kernel)
      (by decide +kernel) (by decide +kernel) (by decide +kernel) (by decide +kernel)
  have hall := receives_replay replayBuild_harvested (.init rfl) hcall hreq
  obtain ⟨bs, hbytes, -, hreplay⟩ := hall [_] _ [_] rfl (by decide +kernel) (by decide +kernel)
    (.inl (by decide +kernel))
  have hbs := hreplay 0xf1 (by decide +kernel)
  rw [if_pos ⟨by decide +kernel, by decide⟩] at hbs
  have hdump : jvsBlob 0xf1 (replayDump 0xf1) = some (replayDump 0xf1) := by decide +kernel
  obtain rfl : replayDump 0xf1 = bs := Option.some.inj (hdump.symm.trans hbs.1)
  obtain ⟨bs', hbytes', -, hlive⟩ := hall [_, _] _ [] rfl (by decide +kernel) (by decide +kernel)
    (.inr (by decide +kernel))
  have hbs' := hlive 0xf1 (by decide +kernel)
  rw [if_neg (by decide +kernel)] at hbs'
  exact ⟨_, _, _, r, _, _, bs', hcall, hbytes, hbytes', hbs', by decide +kernel⟩

end Cfp2Dreamcast
