import Cfp2Dreamcast.Maple.Home
import Cfp2Dreamcast.Maple.Landing

/-!
# The responder

The MIE transport as the game sees it: an agent that is handed lists of frames and
owes one reply to each MP_Start frame, in list order. What it owes to a receive is
decided by the frames before it, of this list and of all the lists before: by the JVS
command that was transmitted last, unless a scan was requested since.
-/

namespace Cfp2Dreamcast

open Program Memory

/-- A transfer of a list: its descriptor and the frame behind it. -/
structure Slot where
  addr : ℕ
  control : ℕ
  rcv : ℕ
  frame : Descriptor

/-- The transfer whose descriptor lies at an address. -/
def slotAt (m : Mem) (addr : ℕ) : Slot where
  addr := addr
  control := ramWord m (p2Addr addr)
  rcv := ramWord m (p2Addr (addr + 0x04)) &&& 0x1fffffe0
  frame := descriptorAt m addr

namespace Slot

variable (x : Slot)

/-- The bytes to the next descriptor: two words, the frame header and the payload. -/
def stride : ℕ := (2 + ((x.control &&& 0xff) + 1)) * 4

/-- An MP_Start frame. -/
def Start : Prop := (x.control >>> 8) &&& 7 = 0

instance : Decidable x.Start := inferInstanceAs (Decidable (_ = _))

/-- The end of the list. -/
def Last : Prop := x.control >>> 31 ≠ 0

instance : Decidable x.Last := inferInstanceAs (Decidable (_ ≠ _))

end Slot

/-- The list that lies at an address: one transfer a stride behind the other, the last
one flagged. -/
inductive ListAt (m : Mem) : ℕ → List Slot → Prop
  | last {addr : ℕ} (h : (slotAt m addr).Last) : ListAt m addr [slotAt m addr]
  | next {addr : ℕ} {xs : List Slot} (h : ¬ (slotAt m addr).Last)
      (hxs : ListAt m (addr + (slotAt m addr).stride) xs) : ListAt m addr (slotAt m addr :: xs)

/-! ## What is owed -/

/-- The frame transmits a JVS command. -/
def Descriptor.Transmit (x : Descriptor) : Prop := x.Mie ∧ x.sub ∈ [0x17, 0x19, 0x21]

instance (x : Descriptor) : Decidable x.Transmit := inferInstanceAs (Decidable (_ ∧ _))

/-- The frame requests a scan of the JVS bus. -/
def Descriptor.Scan (x : Descriptor) : Prop := x.Mie ∧ x.sub = 0x27

instance (x : Descriptor) : Decidable x.Scan := inferInstanceAs (Decidable (_ ∧ _))

/-- The JVS command transmitted last, if no scan was requested since. The latest frame
comes first. -/
def onTheWay (hist : List Descriptor) : Option ℕ :=
  (hist.find? fun x => decide (x.Transmit ∨ x.Scan)).bind fun x =>
    if x.Transmit then some x.jvs else none

/-- The JVS command transmitted last, whatever was requested since. -/
def lastTransmit (hist : List Descriptor) : Option ℕ :=
  (hist.find? fun x => decide x.Transmit).map Descriptor.jvs

/-- The answer to a frame when the JVS command `jvs` is on the way. -/
def respondTo (d : Embedded) (jvs : Option ℕ) (x : Descriptor) : Option Answer :=
  if x.Mie then mieAnswer d (jvs.getD 0xff) x.sub
  else some (.blob (probeAnswer (x.header &&& 0xff) x))

/-- The answer to a frame after the frames of a history. -/
def respond (d : Embedded) (hist : List Descriptor) (x : Descriptor) : Option Answer :=
  respondTo d (onTheWay hist) x

/-- The MP_Start frames of a list in order, each with the answer that the responder
`R` owes to it. -/
def owed (R : List Descriptor → Descriptor → Option Answer) :
    List Descriptor → List Slot → List (Slot × Option Answer)
  | _, [] => []
  | hist, x :: xs =>
      if x.Start then (x, R hist x.frame) :: owed R (x.frame :: hist) xs else owed R hist xs

/-- The history after a list. -/
def historyAfter : List Descriptor → List Slot → List Descriptor
  | hist, [] => hist
  | hist, x :: xs => historyAfter (if x.Start then x.frame :: hist else hist) xs

/-- A transfer was served along a piece of the trace with the statics at `st` before it: the
descriptor is read, and the stores of the piece are the bytes that the answer has with the
statics after it, each once or more, at the receive address and nowhere else. They are
there in the memory. -/
def Replied (d : Embedded) (m : Mem) (st : Static → ℕ) (tr : List (Event shimSig))
    (w : Slot × Option Answer) : Prop :=
  (∃ v, tr.head? = some ⟨.load32 .head (p2Addr w.1.addr), v⟩) ∧
    ∃ a bs, w.2 = some a ∧ bs = a.bytes d (assigned st tr) ∧
      laidOut (repliesOf tr) = block (p2Addr w.1.rcv) bs ∧
      ∀ i (hi : i < bs.length), m (ramCell (w.1.rcv + i)) = bs[i]

/-- The replies of a trace are those that are owed, one after the other. -/
inductive AllReplied (d : Embedded) (m : Mem) : (Static → ℕ) → List (Event shimSig) →
    List (Slot × Option Answer) → Prop
  | nil {st : Static → ℕ} {tr : List (Event shimSig)} (h : repliesOf tr = []) :
      AllReplied d m st tr []
  | cons {st : Static → ℕ} {tr₀ tr tr' : List (Event shimSig)} {w : Slot × Option Answer}
      {ws : List (Slot × Option Answer)} (hquiet : repliesOf tr₀ = [])
      (hw : Replied d m (assigned st tr₀) tr w)
      (hws : AllReplied d m (assigned st (tr₀ ++ tr)) tr' ws) :
      AllReplied d m st (tr₀ ++ (tr ++ tr')) (w :: ws)

/-! ## Where it lies -/

/-- The payload bytes that decide about the answer and the JVS command on the way. -/
def Descriptor.Reads (x : Descriptor) (i : ℕ) : Prop :=
  if x.Mie then i = 0 ∨ i = 8 ∧ x.Transmit
  else x.header &&& 0xff = 0x80 ∧ (i = 1 ∨ i < 28 ∧ x.payload 1 ≠ 0xff)

/-- The cells of a transfer: those up to the next descriptor, and those of a frame that
is cut short that are read all the same. -/
def Slot.Cell (x : Slot) (c : ℕ) : Prop :=
  ∃ i, (i < x.stride ∨ x.Start ∧ ∃ j, x.frame.Reads j ∧ i = 0x0c + j) ∧ ramCell (x.addr + i) = c

/-- The cells of a reply. -/
def ReplyCell (d : Embedded) (w : Slot × Option Answer) (c : ℕ) : Prop :=
  ∃ a, w.2 = some a ∧ ∃ i < a.length d, ramCell (w.1.rcv + i) = c

/-- A list as the engine of the game makes it: its receive addresses are in the window,
its MIE subcommands are handled, and the replies miss each other, the list and the
shim home. -/
structure FairList (d : Embedded) (hist : List Descriptor) (slots : List Slot) : Prop where
  window : ∀ x ∈ slots, x.Start → inWindow x.rcv
  handled : ∀ x ∈ slots, x.Start → x.frame.Mie → x.frame.sub ∈ mieSubs
  apart : (owed (respond d) hist slots).Pairwise fun w w' =>
    ∀ c, ReplyCell d w c → ¬ ReplyCell d w' c
  list : ∀ w ∈ owed (respond d) hist slots, ∀ c, ReplyCell d w c → ∀ x ∈ slots, ¬ x.Cell c
  home : ∀ w ∈ owed (respond d) hist slots, ∀ c, ReplyCell d w c → ¬ InHome c

/-- The list is kept out of the buffers in which the shim polls the pads. -/
def OffPadBuffers (slots : List Slot) : Prop := ∀ x ∈ slots, ∀ c, x.Cell c → ¬ InPadBuffers c

/-! ## The latch and the history -/

section History

variable {x : Descriptor} {pending : ℕ}

theorem Descriptor.latch_of_transmit (h : x.sub ∈ [0x17, 0x19, 0x21]) :
    x.latch pending = x.jvs := by
  simp only [List.mem_cons, List.not_mem_nil, or_false] at h
  unfold latch
  rcases h with h | h | h
  · rw [h]
    rfl
  · rw [h]
    rfl
  · rw [h]
    rfl

theorem Descriptor.latch_of_scan (h : x.sub = 0x27) : x.latch pending = 0xff := by
  rw [latch, h]
  rfl

theorem Descriptor.latch_of_other (h : x.sub ∉ [0x17, 0x19, 0x21, 0x27]) :
    x.latch pending = pending := by
  simp only [List.mem_cons, List.not_mem_nil, or_false, not_or] at h
  obtain ⟨h17, h19, h21, h27⟩ := h
  unfold latch
  split
  · exact absurd ‹_› h17
  · exact absurd ‹_› h19
  · exact absurd ‹_› h21
  · exact absurd ‹_› h27
  · rfl

/-- The latch of the shim follows the history. -/
theorem pendingAfter_onTheWay (x : Descriptor) (hist : List Descriptor) :
    x.pendingAfter ((onTheWay hist).getD 0xff) = (onTheWay (x :: hist)).getD 0xff := by
  unfold Descriptor.pendingAfter onTheWay
  rw [List.find?_cons]
  by_cases htransmit : x.Transmit
  · rw [decide_eq_true (.inl htransmit), if_pos htransmit.1,
      Descriptor.latch_of_transmit htransmit.2]
    simp [htransmit]
  · by_cases hscan : x.Scan
    · rw [decide_eq_true (.inr hscan), if_pos hscan.1, Descriptor.latch_of_scan hscan.2]
      simp [htransmit]
    · rw [decide_eq_false (not_or.2 ⟨htransmit, hscan⟩)]
      by_cases hmie : x.Mie
      · rw [if_pos hmie, Descriptor.latch_of_other]
        intro hsub
        simp only [List.mem_cons, List.not_mem_nil, or_false] at hsub
        rcases hsub with h | h | h | h
        · exact htransmit ⟨hmie, by simp [h]⟩
        · exact htransmit ⟨hmie, by simp [h]⟩
        · exact htransmit ⟨hmie, by simp [h]⟩
        · exact hscan ⟨hmie, h⟩
      · rw [if_neg hmie]

/-- Only a receive asks for the JVS command on the way. -/
theorem mieAnswer_of_ne (d : Embedded) (p q : ℕ) {sub : ℕ} (h : sub ≠ 0x15) :
    mieAnswer d p sub = mieAnswer d q sub := by
  unfold mieAnswer
  split
  · rfl
  · exact absurd rfl h
  all_goals rfl

/-- The answer by the latch is the answer by the history. -/
theorem Descriptor.answer_eq_respondTo (d : Embedded) (x : Descriptor) (jvs : Option ℕ) :
    x.answer d (jvs.getD 0xff) = respondTo d jvs x := by
  unfold answer respondTo
  by_cases hmie : x.Mie
  · rw [if_pos hmie, if_pos hmie]
    by_cases hsub : x.sub = 0x15
    · rw [latch_of_other (by rw [hsub]; decide)]
    · exact mieAnswer_of_ne d _ _ hsub
  · rw [if_neg hmie, if_neg hmie]

/-- A handled frame has an answer. -/
theorem exists_respondTo (d : Embedded) (jvs : Option ℕ) (h : x.Mie → x.sub ∈ mieSubs) :
    ∃ a, respondTo d jvs x = some a := by
  unfold respondTo
  by_cases hmie : x.Mie
  · rw [if_pos hmie]
    have hsub := h hmie
    simp only [mieSubs, List.mem_cons, List.not_mem_nil, or_false] at hsub
    by_cases hreceive : x.sub = 0x15
    · rw [hreceive]
      unfold mieAnswer
      simp only
      split <;> exact ⟨_, rfl⟩
    · have hsub := hsub.imp_right fun h => h.resolve_left hreceive
      rcases hsub with h | h | h | h | h | h | h | h | h | h | h <;> rw [h] <;> exact ⟨_, rfl⟩
  · rw [if_neg hmie]
    exact ⟨_, rfl⟩

end History

section Congruence

variable {x y : Descriptor} (hheader : y.header = x.header)
  (hpayload : ∀ i, x.Reads i → y.payload i = x.payload i)

include hheader

theorem Descriptor.mie_congr : y.Mie ↔ x.Mie := by
  unfold Mie
  rw [hheader]

include hpayload

omit hheader in
theorem Descriptor.sub_congr (hmie : x.Mie) : y.sub = x.sub :=
  congrArg UInt8.toNat (hpayload 0 (by rw [Reads, if_pos hmie]; exact .inl rfl))

/-- Equal bytes where the frame is read leave the same JVS command on the way. -/
theorem Descriptor.pendingAfter_congr (pending : ℕ) :
    y.pendingAfter pending = x.pendingAfter pending := by
  unfold pendingAfter
  by_cases hmie : x.Mie
  · rw [if_pos hmie, if_pos ((mie_congr hheader).2 hmie)]
    have hsub := sub_congr hpayload hmie
    by_cases htransmit : x.sub ∈ [0x17, 0x19, 0x21]
    · have hjvs : y.jvs = x.jvs := congrArg UInt8.toNat
        (hpayload 8 (by rw [Reads, if_pos hmie]; exact .inr ⟨rfl, hmie, htransmit⟩))
      rw [latch_of_transmit htransmit, latch_of_transmit (hsub ▸ htransmit), hjvs]
    · unfold latch
      rw [hsub]
      split
      · exact absurd (by rw [‹x.sub = _›]; decide) htransmit
      · exact absurd (by rw [‹x.sub = _›]; decide) htransmit
      · exact absurd (by rw [‹x.sub = _›]; decide) htransmit
      · rfl
      · rfl
  · rw [if_neg hmie, if_neg (mt (mie_congr hheader).1 hmie)]

/-- Equal bytes where the frame is read have the same answer. -/
theorem respondTo_congr (d : Embedded) (jvs : Option ℕ) :
    respondTo d jvs y = respondTo d jvs x := by
  unfold respondTo
  by_cases hmie : x.Mie
  · rw [if_pos hmie, if_pos ((Descriptor.mie_congr hheader).2 hmie),
      Descriptor.sub_congr hpayload hmie]
  · rw [if_neg hmie, if_neg (mt (Descriptor.mie_congr hheader).1 hmie), hheader]
    have hreads : ∀ i, x.header &&& 0xff = 0x80 → (i = 1 ∨ i < 28 ∧ x.payload 1 ≠ 0xff) →
        y.payload i = x.payload i := by
      intro i h80 hi
      refine hpayload i ?_
      rw [Descriptor.Reads, if_neg hmie]
      exact ⟨h80, hi⟩
    generalize x.header &&& 0xff = cmd at hreads
    congr 2
    unfold probeAnswer
    rw [hheader]
    split
    · rfl
    · rfl
    · rfl
    · rw [hreads 1 rfl (.inl rfl)]
      by_cases hff : x.payload 1 = 0xff
      · rw [if_pos hff, if_pos hff]
      · have hsum : y.chunkSum = x.chunkSum := by
          unfold Descriptor.chunkSum
          refine congrArg List.sum (List.map_congr_left fun k hk => ?_)
          rw [hreads k rfl (.inr ⟨List.mem_range.1 hk, hff⟩)]
        rw [if_neg hff, if_neg hff, hsum]
    · rfl

end Congruence

/-- In a memory that agrees on its cells a transfer reads the same. -/
theorem slotAt_congr {m m' : Mem} {addr : ℕ}
    (h : ∀ c, (slotAt m addr).Cell c → m' c = m c) :
    (slotAt m' addr).control = (slotAt m addr).control ∧
      (slotAt m' addr).rcv = (slotAt m addr).rcv ∧
      (slotAt m' addr).frame.header = (slotAt m addr).frame.header ∧
      ((slotAt m addr).Start → ∀ i, (slotAt m addr).frame.Reads i →
        (slotAt m' addr).frame.payload i = (slotAt m addr).frame.payload i) := by
  have hword : ∀ off, off + 4 ≤ 12 →
      ramWord m' (p2Addr (addr + off)) = ramWord m (p2Addr (addr + off)) := by
    refine fun off hoff => ramWord_congr fun i hi => ?_
    rw [ramCell_p2Addr_add, Nat.add_assoc]
    refine h _ ⟨off + i, .inl ?_, rfl⟩
    unfold Slot.stride
    omega
  refine ⟨hword 0 (by decide), congrArg (· &&& 0x1fffffe0) (hword 4 (by decide)),
    hword 8 (by decide), fun hstart i hi => ?_⟩
  refine h _ ⟨0x0c + i, .inr ⟨hstart, i, hi, rfl⟩, ?_⟩
  rw [← Nat.add_assoc]
  rfl

/-! ## Layouts -/

section Layout

variable {d : Embedded} {hist : List Descriptor} {slots : List Slot}

/-- The length of a reply. -/
def replyLength (d : Embedded) (w : Slot × Option Answer) : ℕ :=
  (w.2.map (Answer.length d)).getD 0

theorem replyCell_iff {w : Slot × Option Answer} {c : ℕ} :
    ReplyCell d w c ↔ ∃ i < replyLength d w, ramCell (w.1.rcv + i) = c := by
  obtain ⟨x, a⟩ := w
  cases a with
  | none => exact iff_of_false (by rintro ⟨a, ha, -⟩; cases ha) (by rintro ⟨i, hi, -⟩; cases hi)
  | some a =>
      constructor
      · rintro ⟨a', ha, h⟩
        cases ha
        exact h
      · exact fun h => ⟨a, rfl, h⟩

/-- A transfer is within the longest descriptor. -/
theorem Slot.Cell.exists_lt {x : Slot} {c : ℕ} (h : x.Cell c) :
    ∃ i < 1032, ramCell (x.addr + i) = c := by
  obtain ⟨i, hi, hc⟩ := h
  refine ⟨i, ?_, hc⟩
  rcases hi with hi | ⟨-, j, hj, rfl⟩
  · exact Nat.lt_of_lt_of_le hi (stride_le _)
  · have hj : j < 28 := by
      unfold Descriptor.Reads at hj
      split at hj
      · omega
      · omega
    omega

/-- Replies behind each other in the order of the list, between `lo` and `hi` below the
shim home, and a list that is elsewhere. -/
theorem FairList.of_layout {lo hi : ℕ} (hlo : 0x0c000000 ≤ lo) (hhi : hi ≤ 0x0cfc0000)
    (hwindow : ∀ x ∈ slots, x.Start → inWindow x.rcv)
    (hhandled : ∀ x ∈ slots, x.Start → x.frame.Mie → x.frame.sub ∈ mieSubs)
    (hslots : ∀ x ∈ slots, 0x0c000000 ≤ x.addr ∧ x.addr + 1032 ≤ lo ∨
      hi ≤ x.addr ∧ x.addr + 1032 ≤ 0x0d000000)
    (hreplies : ∀ w ∈ owed (respond d) hist slots,
      lo ≤ w.1.rcv ∧ w.1.rcv + replyLength d w ≤ hi)
    (horder : (owed (respond d) hist slots).Pairwise fun w w' =>
      w.1.rcv + replyLength d w ≤ w'.1.rcv) : FairList d hist slots := by
  have hcell : ∀ w ∈ owed (respond d) hist slots, ∀ c, ReplyCell d w c →
      ∃ i < replyLength d w, w.1.rcv + i = c + 0x0c000000 := by
    intro w hw c hc
    obtain ⟨i, hi', rfl⟩ := replyCell_iff.1 hc
    obtain ⟨h₁, h₂⟩ := hreplies w hw
    refine ⟨i, hi', ?_⟩
    unfold ramCell
    omega
  refine ⟨hwindow, hhandled, ?_, fun w hw c hc x hx hxc => ?_, fun w hw c hc => ?_⟩
  · refine (List.pairwise_iff_forall_sublist.2 fun {w w'} hsub => ?_)
    have horder := List.pairwise_iff_forall_sublist.1 horder hsub
    have hw : w ∈ owed (respond d) hist slots := hsub.subset List.mem_cons_self
    have hw' : w' ∈ owed (respond d) hist slots :=
      hsub.subset (List.mem_cons_of_mem _ List.mem_cons_self)
    intro c hc hc'
    obtain ⟨i, hi₁, hi₂⟩ := hcell w hw c hc
    obtain ⟨j, hj₁, hj₂⟩ := hcell w' hw' c hc'
    omega
  · obtain ⟨i, hi₁, hi₂⟩ := hcell w hw c hc
    obtain ⟨h₁, h₂⟩ := hreplies w hw
    obtain ⟨j, hj, rfl⟩ := hxc.exists_lt
    unfold ramCell at hi₂
    rcases hslots x hx with h | h
    · omega
    · omega
  · obtain ⟨i, hi₁, hi₂⟩ := hcell w hw c hc
    obtain ⟨h₁, h₂⟩ := hreplies w hw
    unfold InHome
    omega

/-- A list below the shim home. -/
theorem OffPadBuffers.of_layout
    (hslots : ∀ x ∈ slots, 0x0c000000 ≤ x.addr ∧ x.addr + 1032 ≤ 0x0cfc0000) :
    OffPadBuffers slots := by
  intro x hx c hc
  obtain ⟨i, hi, rfl⟩ := hc.exists_lt
  have hx := hslots x hx
  unfold InPadBuffers ramCell
  omega

end Layout

end Cfp2Dreamcast
