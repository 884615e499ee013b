import Cfp2Dreamcast.Cart.EndToEnd
import Cfp2Dreamcast.Program.Progress

/-!
# Calls that are served

What a call of the cart service needs of the drive in order to return: every SEND is
accepted, no CHECK reports a failure or a lost request, and the polls of the whole call
fit into the bound of one. A drive that completes each request at its first CHECK is one,
so every request the guard accepts can be served.
-/

namespace Cfp2Dreamcast

open Program Memory

/-- The answer of a drive at work. -/
def Works : Event shimSig → Prop
  | ⟨.gdc _ _ r7, r⟩ => (r7 = gdSend → 0 < GdReply.r0 r) ∧
      (r7 = gdCheck → ¬ GdReply.r0 r ≤ gdFailed ∧ GdReply.r0 r ≠ gdNotFound)
  | _ => True

/-- The CHECKs of a trace, one for each round of a poll. -/
def isCheck (ev : Event shimSig) : Bool :=
  match ev.cmd with
  | .gdc _ _ r7 => r7 = gdCheck
  | _ => false

/-- The answer of a drive that completes every request at its first CHECK. -/
def Prompt : Event shimSig → Prop
  | ⟨.gdc _ _ r7, r⟩ => (r7 = gdSend → 0 < GdReply.r0 r) ∧
      (r7 = gdCheck → GdReply.r0 r = gdCompleted)
  | _ => True

/-- Events in `G`, of which at most `n` satisfy `P`, make every attempt complete. -/
structure Obliges (M : Machine shimSig (State Mem)) (G : Event shimSig → Prop)
    (P : Event shimSig → Bool) (n : ℕ) : Prop where
  send : ∀ {r4 block r}, G ⟨.gdc r4 block gdSend, r⟩ → 0 < GdReply.r0 r
  poll : ∀ fad k req, ReturnsWithin M G P n (gdPoll fad k req gdGuardMax 0) (· = true)

section Polls

variable {M : Machine shimSig (State Mem)} {n : ℕ}

theorem gdPollStep_returns {req guard : ℕ} {again : Shim Bool}
    (hagain : ReturnsWithin M Works isCheck n again (· = true)) :
    ReturnsWithin M Works isCheck (n + 1) (gdPollStep req guard again) (· = true) := by
  refine .op fun _ _ => .op_counted (fun _ => rfl) fun r hr => ?_
  obtain ⟨hfail, hlost⟩ := hr.2 rfl
  show ReturnsWithin M Works isCheck n (ite _ _ _) _
  by_cases hdone : GdReply.r0 r = gdCompleted
  · rw [if_pos hdone]
    exact returnsWithin_ret rfl
  · rw [if_neg hdone, if_neg hfail, if_neg fun h => hlost h.1]
    exact hagain

theorem gdPoll_returns (fad k req left guard : ℕ) :
    ReturnsWithin M Works isCheck left (gdPoll fad k req left guard) (· = true) := by
  induction left generalizing guard with
  | zero => exact .op fun _ _ => .op_last fun _ => rfl
  | succ left ih => exact gdPollStep_returns (ih (guard + 1))

theorem obliges_works : Obliges M Works isCheck gdGuardMax where
  send h := h.1 rfl
  poll fad k req := gdPoll_returns fad k req gdGuardMax 0

theorem obliges_prompt : Obliges M Prompt (fun _ => false) 0 where
  send h := h.1 rfl
  poll fad k req := by
    refine .op fun _ _ => .op fun r hr => ?_
    show ReturnsWithin M Prompt (fun _ => false) 0 (ite _ _ _) _
    rw [if_pos (hr.2 rfl)]
    exact returnsWithin_ret rfl

end Polls

/-- The commands of a program that never halts. -/
def anyGuard : Guard shimSig := ⟨fun _ => True, fun _ => False, fun _ => False⟩

theorem ocbiBlocks_any (a k : ℕ) : Keeps anyGuard (ocbiBlocks a k) := by
  induction k generalizing a with
  | zero => trivial
  | succ k ih => exact .op trivial fun _ => ih _

theorem xmemcpy_any (d s k : ℕ) : Keeps anyGuard (xmemcpy d s k) := by
  induction k generalizing d s with
  | zero => trivial
  | succ k ih => exact .op trivial fun _ => .op trivial fun _ => ih _ _

section Returns

variable {M : Machine shimSig (State Mem)} {G : Event shimSig → Prop}
  {P : Event shimSig → Bool} {n : ℕ} (h : Obliges M G P n) {b : Build}

theorem orDie_returns {p : Shim ℤ} {rel : ℕ} (hp : ReturnsWithin M G P n p (· = 0)) :
    ReturnsWithin M G P n (do
      let r ← p
      if r < 0 then do
        let e ← getStatic .gdLastErr
        shimDie 4 rel e
      else pure ()) fun _ => True := by
  refine hp.bind ?_
  rintro _ rfl
  exact returnsWithin_ret trivial

include h

/-- The first attempt completes. -/
theorem Obliges.gdAttempt {md : GdMode} {dst fad k : ℕ}
    (hprepare : ReturnsWithin M G P n md.prepare fun _ => True)
    (hfinish : ReturnsWithin M G P n md.finish fun _ => True) :
    ReturnsWithin M G P n (gdAttempt md dst fad k) (· = true) := by
  refine hprepare.bind fun _ _ => .op fun r hr => ?_
  show ReturnsWithin M G P n (ite _ _ _) _
  rw [if_neg (not_le.2 (h.send hr))]
  refine (h.poll fad k _).bind ?_
  rintro _ rfl
  exact hfinish.bind fun _ _ => returnsWithin_ret rfl

theorem Obliges.gdRead {md : GdMode} {dst fad k : ℕ}
    (hprepare : ReturnsWithin M G P n md.prepare fun _ => True)
    (hfinish : ReturnsWithin M G P n md.finish fun _ => True) :
    ReturnsWithin M G P n (gdRead b md dst fad k 4 0) (· = 0) := by
  refine .bind (.whenever (fun h => absurd rfl h) trivial) fun _ (_ : True) => ?_
  refine (h.gdAttempt hprepare hfinish).bind ?_
  rintro _ rfl
  exact returnsWithin_ret rfl

theorem Obliges.gdOrDie {dst rel k : ℕ} :
    ReturnsWithin M G P n (gdOrDie b dst rel k) fun _ => True :=
  orDie_returns (h.gdRead (returnsWithin_ret trivial) (returnsWithin_ret trivial))

theorem Obliges.gdOrDieDma {p rel k : ℕ} :
    ReturnsWithin M G P n (gdOrDieDma b p rel k) fun _ => True := by
  refine orDie_returns ?_
  refine .op fun _ _ => .op fun _ _ => .op fun _ _ => .op fun _ _ => .op fun _ _ =>
    .op fun _ _ => h.gdRead ?_ ?_
  · exact (ocbiBlocks_any _ _).returnsWithin fun _ h => h
  · exact .op fun _ _ => returnsWithin_ret trivial

theorem Obliges.cartBounce {dst rel skip take : ℕ} :
    ReturnsWithin M G P n (cartBounce b dst rel skip take) fun _ => True :=
  h.gdOrDie.bind fun _ _ => (xmemcpy_any _ _ _).returnsWithin fun _ h => h

theorem Obliges.cartRead {off len dest : ℕ} :
    ReturnsWithin M G P n (cartRead b off len dest) fun _ => True := by
  refine .bind (Q := fun _ => True) (.whenever (fun _ => h.cartBounce) trivial) fun _ _ => ?_
  refine .bind (Q := fun _ => True) (.whenever (fun _ => ?_) trivial) fun _ _ =>
    .whenever (fun _ => h.cartBounce) trivial
  unfold cartBody
  split
  · exact h.gdOrDieDma
  · exact h.gdOrDie

theorem Obliges.serveRequest {q : Request} :
    ReturnsWithin M G P n (serveRequest b q) fun _ => True := by
  refine h.cartRead.bind fun _ _ => .op fun _ _ => .whenever (fun _ => ?_) trivial
  exact (loadbarStep_keeps q.len).returnsWithin fun _ h => h

end Returns

/-! A drive that completes every request at its first CHECK. -/

/-- The buffer of the pending read is one the drive may write. -/
def Drive.Ready (d : Drive) : Prop :=
  ∀ id rd, d.pending = some (id, rd) → rd.buffer ∈ d.buffers

/-- As long as it is ready, the drive answers promptly. -/
def Answers (s : State Mem) (c : Cmd) (r : c.Resp) (s' : State Mem) : Prop :=
  s.drive.Ready → s'.drive.Ready ∧ Prompt ⟨c, r⟩

section Prompt

variable {W : World Mem} {s s' : State Mem}

/-- The drive can write a buffer of its own from beginning to end. -/
theorem transfers_deliver (disc : Disc) (m : Mem) {d : Drive} {rd : Read}
    (hrd : rd.buffer ∈ d.buffers) {k : ℕ} (hk : k ≤ rd.n * 2048) :
    ∃ m' d', Transfers flatBus (m, d) (m', d') ∧
      d'.buffers = d.buffers ∧ ∀ i < k, d'.wrote (rd.addr + i) = some (rd.byte disc i) := by
  induction k with
  | zero => exact ⟨m, d, .refl, rfl, fun i hi => absurd hi (Nat.not_lt_zero i)⟩
  | succ k ih =>
      obtain ⟨m₁, d₁, htr, hbuf, hwrote⟩ := ih (Nat.le_of_succ_le hk)
      have hin : inBuffers d₁.buffers (rd.addr + k) :=
        ⟨rd.buffer, hbuf ▸ hrd, Nat.le_add_right _ _, Nat.add_lt_add_left hk _⟩
      refine ⟨_, _, htr.tail (.store (v := rd.byte disc k) hin rfl), hbuf, fun i hi => ?_⟩
      rcases Nat.lt_or_eq_of_le (Nat.le_of_lt_succ hi) with hlt | rfl
      · have hne : rd.addr + i ≠ rd.addr + k := by omega
        exact (Function.update_of_ne hne _ _).trans (hwrote i hlt)
      · exact Function.update_self _ _ _

theorem Drive.ready_idle : Drive.idle.Ready := fun _ _ h => by cases h

theorem Drive.Ready.send {d : Drive} (h : d.Ready) (r4 : ℕ) (block : List ℕ) (r0 : ℤ) :
    (d.send r4 block r0).Ready := by
  unfold Drive.send
  split
  · split
    · intro id rd hrd
      cases hrd
      exact List.mem_cons_self
    · exact fun _ _ hrd => by cases hrd
  · exact h

/-- Such a drive has an answer to every command. -/
theorem answers_gdc (r4 : ℕ) (block : List ℕ) (r7 : ℕ) (s : State Mem) :
    ∃ r s', (flatMachine W).step s (.gdc r4 block r7) r s' ∧
      Answers s (.gdc r4 block r7) r s' := by
  by_cases hready : s.drive.Ready
  swap
  · obtain ⟨r, s', hstep⟩ := flat_total (W := W) (c := .gdc r4 block r7) (by simp) s
    exact ⟨r, s', hstep, fun h => absurd h hready⟩
  by_cases hsend : r7 = gdSend
  · subst hsend
    refine ⟨⟨1, 0⟩, _, ⟨_, _, .send .refl, rfl⟩, fun h => ⟨h.send r4 block 1, ?_, ?_⟩⟩
    · exact fun _ => by decide
    · exact fun h => absurd h (by decide)
  by_cases hcheck : r7 = gdCheck
  · subst hcheck
    have hprompt : Prompt ⟨.gdc r4 block gdCheck, (⟨2, 0⟩ : GdReply)⟩ :=
      ⟨fun h => absurd h (by decide), fun _ => rfl⟩
    by_cases hrd : ∃ rd, s.drive.Completes r4 2 rd
    · obtain ⟨rd, hrd⟩ := hrd
      obtain ⟨m, d, htr, -, hwrote⟩ := transfers_deliver W.disc s.mem
        (hready _ _ hrd.2) le_rfl
      exact ⟨⟨2, 0⟩, _, ⟨_, _, .completed hrd htr hwrote, rfl⟩,
        fun _ => ⟨Drive.ready_idle, hprompt⟩⟩
    · exact ⟨⟨2, 0⟩, _, ⟨_, _, .check (fun rd h => hrd ⟨rd, h⟩) .refl, rfl⟩,
        fun h => ⟨h, hprompt⟩⟩
  · exact ⟨⟨0, 0⟩, _, ⟨_, _, .other hsend hcheck .refl, rfl⟩,
      fun h => ⟨h, fun h => absurd h hsend, fun h => absurd h hcheck⟩⟩

theorem prompt_of_not_gdc {c : Cmd} (hc : ∀ r4 block r7, c ≠ .gdc r4 block r7) (r : c.Resp) :
    Prompt ⟨c, r⟩ := by
  cases c with
  | gdc r4 block r7 => exact absurd rfl (hc r4 block r7)
  | _ => trivial

theorem answers_total {c : Cmd} (hc : c ≠ .engine) (s : State Mem) :
    ∃ r s', (flatMachine W).step s c r s' ∧ Answers s c r s' := by
  by_cases hgdc : ∃ r4 block r7, c = .gdc r4 block r7
  · obtain ⟨r4, block, r7, rfl⟩ := hgdc
    exact answers_gdc r4 block r7 s
  · simp only [not_exists] at hgdc
    obtain ⟨r, s', hstep⟩ := flat_total (W := W) hc s
    have hdrive : s'.drive = s.drive := shimStep_drive hstep hgdc
    exact ⟨r, s', hstep, fun h => ⟨hdrive ▸ h, prompt_of_not_gdc hgdc r⟩⟩

end Prompt

section Call

variable {b : Build} {W : World Mem} {cart : ℕ → UInt8} {s s' : State Mem}
  {tr : List (Event shimSig)} {o : Outcome shimSig Unit}

/-- A call that returns found a good request. -/
theorem good_of_returned {u : Unit}
    (h : Exec (flatMachine W) (shimCartService b) s tr (.ret u) s') :
    ¬ (requestAt s.mem).bad ∧ ∃ tr',
      Exec (flatMachine W) (serveRequest b (requestAt s.mem)) s tr' (.ret u) s' := by
  obtain ⟨loads, tr', rfl, hloads, hanswer⟩ := (shimCartService_request b s).exec h
  unfold answerRequest at hanswer
  split at hanswer
  · have hrefused : Refused W (requestAt s.mem) s (loads ++ tr') (.ret u) s' :=
      ⟨loads, tr', rfl, hloads, hanswer⟩
    cases hrefused.outcome
  · next hbad => exact ⟨fun h => hbad ((requestAt_refused_iff s.mem).2 h), tr', hanswer⟩

/-- A call that returns has served its request. -/
theorem served_of_returned {u : Unit} (hdisc : Mastered b W.disc cart) (hidle : s.drive = .idle)
    (h : Exec (flatMachine W) (shimCartService b) s tr (.ret u) s') :
    Served cart (requestAt s.mem) s (.ret u) s' := by
  obtain ⟨hgood, tr', hserve⟩ := good_of_returned h
  rcases (serveRequest_outcome hdisc hidle hgood).exec hserve with hfail | hserved
  · obtain ⟨x, y, ho | ho⟩ := hfail.outcome
    · cases ho
    · cases ho
  · exact hserved

/-- A call that halts has refused its request or died in the GD layer. -/
theorem code_of_halted {e : Halt}
    (h : Exec (flatMachine W) (shimCartService b) s tr (.halt e) s') :
    (requestAt s.mem).bad ∧ e = .die 2 (requestAt s.mem).off (requestAt s.mem).dest ∨
      ¬ (requestAt s.mem).bad ∧ ∃ x z, e = .die 4 x z ∨ e = .die 5 x z := by
  obtain ⟨loads, tr', rfl, hloads, hanswer⟩ := (shimCartService_request b s).exec h
  unfold answerRequest at hanswer
  split at hanswer
  · next hbad =>
    have hrefused : Refused W (requestAt s.mem) s (loads ++ tr') (.halt e) s' :=
      ⟨loads, tr', rfl, hloads, hanswer⟩
    cases hrefused.outcome
    exact .inl ⟨(requestAt_refused_iff s.mem).1 hbad, rfl⟩
  · next hbad =>
    have hgood := fun h => hbad ((requestAt_refused_iff s.mem).2 h)
    exact .inr ⟨hgood, (serveRequest_keeps hgood).exec_halt hanswer⟩

/-- A good request is served after the loads of the mirror. -/
theorem exec_serveRequest_of_good (hgood : ¬ (requestAt s.mem).bad)
    (h : Exec (flatMachine W) (shimCartService b) s tr o s') :
    ∃ loads tr', tr = loads ++ tr' ∧
      Exec (flatMachine W) (serveRequest b (requestAt s.mem)) s tr' o s' := by
  obtain ⟨loads, tr', htr, -, hanswer⟩ := (shimCartService_request b s).exec h
  unfold answerRequest at hanswer
  rw [if_neg fun h => hgood ((requestAt_refused_iff s.mem).1 h)] at hanswer
  exact ⟨loads, tr', htr, hanswer⟩

/-- A good request is answered as `serveRequest` runs. -/
theorem exec_shimCartService_of_good (hgood : ¬ (requestAt s.mem).bad)
    (h : Exec (flatMachine W) (serveRequest b (requestAt s.mem)) s tr o s') :
    ∃ loads : List (Event shimSig), (∀ ev ∈ loads, ∃ a, ev.cmd = Cmd.load32 .own a) ∧
      Exec (flatMachine W) (shimCartService b) s (loads ++ tr) o s' := by
  have hload : ∀ {k : ℕ → Shim Unit} {a : ℕ} {tr : List (Event shimSig)}, isRam a →
      Exec (flatMachine W) (k (ramWord s.mem a)) s tr o s' →
      Exec (flatMachine W) (.op (Cmd.load32 .own a) k) s
        (⟨Cmd.load32 .own a, ramWord s.mem a⟩ :: tr) o s' :=
    fun ha h => .op ((step_load32 ha).2 ⟨rfl, _, rfl, rfl⟩) h
  have hanswer : Exec (flatMachine W) (answerRequest b (requestAt s.mem)) s tr o s' := by
    unfold answerRequest
    rwa [if_neg fun h => hgood ((requestAt_refused_iff s.mem).1 h)]
  have h₁ : isRam (p2Addr g1Mirror + 0x0c) := by decide
  have h₂ : isRam (p2Addr g1Mirror + 0x10) := by decide
  have h₃ : isRam (p2Addr g1Mirror + 0x408) := by decide
  have h₄ : isRam (p2Addr g1Mirror + 0x404) := by decide
  unfold shimCartService
  simp only [Prog.op_bind, Prog.ret_bind]
  refine ⟨[_, _, _, _], ?_, hload h₁ (hload h₂ (hload h₃ (hload h₄ hanswer)))⟩
  simp

/-- A good request can be served by a drive that is prompt. -/
theorem exists_served (hidle : s.drive = .idle) (hgood : ¬ (requestAt s.mem).bad) :
    ∃ tr s', Exec (flatMachine W) (shimCartService b) s tr (.ret ()) s' ∧
      ∀ ev ∈ tr, Prompt ev := by
  obtain ⟨tr, o, s', hexec⟩ := Keeps.exists_exec (M := (flatMachine W).only Answers)
    (serveRequest_keeps (b := b) hgood)
    (fun s c hc => answers_total (serviceGuard_no_engine hc) s) s
  obtain ⟨hprompt, -⟩ := hexec.only_events (I := fun s => s.drive.Ready) (P := Prompt)
    (fun s c r s' hs _ hG => ⟨(hG hs).2, (hG hs).1⟩) (hidle ▸ Drive.ready_idle)
  obtain ⟨loads, hloads, hcall⟩ := exec_shimCartService_of_good hgood hexec.of_only
  rcases obliges_prompt.serveRequest _ _ _ _ hexec.of_only hprompt with hn | ⟨a, rfl, -⟩
  · rw [List.countP_false] at hn
    exact absurd hn (Nat.lt_irrefl 0)
  refine ⟨_, s', hcall, fun ev hev => (List.mem_append.1 hev).elim (fun hl => ?_) (hprompt ev)⟩
  obtain ⟨a, ha⟩ := hloads ev hl
  exact prompt_of_not_gdc (by simp [ha]) ev.resp

/-- Calls for good requests and the drive: every such call can be served, and one is
served whenever the drive accepts each SEND, reports no failure and no lost request to a
CHECK, and is asked no more often than one poll may ask. -/
theorem cart_serves_at_work (hdisc : Mastered b W.disc cart) (hidle : s.drive = .idle)
    (hgood : ¬ (requestAt s.mem).bad) :
    (∃ tr s', Exec (flatMachine W) (shimCartService b) s tr (.ret ()) s' ∧
      (∀ ev ∈ tr, Prompt ev) ∧ Served cart (requestAt s.mem) s (.ret ()) s') ∧
    ∀ tr o s', Exec (flatMachine W) (shimCartService b) s tr o s' → (∀ ev ∈ tr, Works ev) →
      tr.countP isCheck ≤ gdGuardMax → Served cart (requestAt s.mem) s o s' := by
  constructor
  · obtain ⟨tr, s', hexec, hprompt⟩ := exists_served (b := b) (W := W) hidle hgood
    exact ⟨tr, s', hexec, hprompt, served_of_returned hdisc hidle hexec⟩
  · intro tr o s' hexec hworks hcount
    obtain ⟨loads, tr', rfl, hexec'⟩ := exec_serveRequest_of_good hgood hexec
    rw [List.countP_append] at hcount
    rcases obliges_works.serveRequest _ _ _ _ hexec'
        fun ev hev => hworks ev (List.mem_append_right _ hev) with hn | ⟨a, rfl, -⟩
    · omega
    · exact served_of_returned hdisc hidle hexec

/-- A disc whose cart holds the low byte of its own offset. -/
theorem mastered_sample :
    Mastered .gdi (fun fad j => UInt8.ofNat (2048 * (fad - 451878) + j)) UInt8.ofNat := by
  intro k _ j _
  show UInt8.ofNat (2048 * (451878 + k - 451878) + j) = _
  rw [Nat.add_sub_cancel_left]

theorem sampleMirror_good : ¬ (requestAt sampleMirror).bad := by
  have hbounds : (requestAt sampleMirror).off < 2 ^ 28 ∧
      (requestAt sampleMirror).dest < 2 ^ 29 := decodeRequest_bounds _ _ _ _
  rw [← Request.refused_iff_bad hbounds.1 hbounds.2, requestAt_sampleMirror]
  decide

/-- The release build has a call that serves the sample request. -/
theorem cart_serves_at_work_sample :
    let W : World Mem :=
      ⟨fun fad j => UInt8.ofNat (2048 * (fad - 451878) + j), fun m r m' => r = 0 ∧ m' = m⟩
    let s : State Mem := ⟨sampleMirror, fun _ => 0, .idle, fun _ => 0⟩
    ∃ tr s', Exec (flatMachine W) (shimCartService .gdi) s tr (.ret ()) s' ∧
      (∀ ev ∈ tr, Prompt ev) ∧ Served UInt8.ofNat (requestAt s.mem) s (.ret ()) s' := by
  intro W s
  exact (cart_serves_at_work (s := s) mastered_sample rfl sampleMirror_good).1

end Call

end Cfp2Dreamcast
