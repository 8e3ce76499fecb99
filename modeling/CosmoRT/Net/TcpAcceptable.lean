import CosmoRT.Net.TcpWindow
import Mathlib.Data.List.Induction

/-!
# Which segments a TCP connection acts on

Three checks a connection owes to its peer: the acknowledgement number of a SYN-ACK, the
sequence number of a reset, and the timestamp test before anything of a segment is used.

* `acts_on_acceptable` — **exactly when** the connection acts on acceptable segments only.  Of
  the three checks the source makes none of the first two, and it makes the third after the
  options were applied (`acts_on_unacceptable`).
-/

namespace CosmoRT.Net

open Lib List

/-! ## The options of a segment -/

/-- The options that the loop visits. -/
def optionsOf (opts : List UInt8) : List (List UInt8) := parseOptions (fun l o => l ++ [o]) [] opts

theorem walkOptions_eq_foldl {σ : Type} (f : σ → List UInt8 → σ) (fuel : ℕ) (opts : List UInt8)
    (l : List (List UInt8)) (s : σ) :
    walkOptions f fuel (l.foldl f s) opts =
      (walkOptions (fun l o => l ++ [o]) fuel l opts).foldl f s := by
  induction fuel generalizing opts l with
  | zero => rfl
  | succ fuel ih =>
    rcases opts with _ | ⟨kind, _ | ⟨olen, rest⟩⟩
    · rfl
    · simp only [walkOptions]
      split
      · rfl
      · split
        · exact ih _ l
        · rfl
    · simp only [walkOptions]
      split
      · rfl
      · split
        · exact ih _ l
        · split
          · rfl
          · rw [← ih _ (l ++ _), foldl_append]
            rfl

theorem parseOptions_eq_foldl {σ : Type} (f : σ → List UInt8 → σ) (s : σ) (opts : List UInt8) :
    parseOptions f s opts = (optionsOf opts).foldl f s :=
  walkOptions_eq_foldl f opts.length opts [] s

/-- The options of an area: they follow one another, with no-operations between them, up to an end
mark, a length that does not fit, or the end of the area. -/
inductive Divided : List UInt8 → List (List UInt8) → Prop
  | done : Divided [] []
  | mark (rest : List UInt8) : Divided (0 :: rest) []
  | cut {kind : UInt8} (h0 : kind ≠ 0) (h1 : kind ≠ 1) : Divided [kind] []
  | bad {kind olen : UInt8} {rest : List UInt8} (h0 : kind ≠ 0) (h1 : kind ≠ 1)
    (hbad : olen.toNat < 2 ∨ (kind :: olen :: rest).length < olen.toNat) :
    Divided (kind :: olen :: rest) []
  | nop {rest : List UInt8} {os : List (List UInt8)} : Divided rest os → Divided (1 :: rest) os
  | option {kind olen : UInt8} {body rest : List UInt8} {os : List (List UInt8)} (h0 : kind ≠ 0)
    (h1 : kind ≠ 1) (hlen : (kind :: olen :: body).length = olen.toNat) :
    Divided rest os → Divided (kind :: olen :: (body ++ rest)) ((kind :: olen :: body) :: os)

theorem walkOptions_divided (fuel : ℕ) (l : List (List UInt8)) (opts : List UInt8)
    (hfuel : opts.length ≤ fuel) :
    ∃ os, walkOptions (fun l o => l ++ [o]) fuel l opts = l ++ os ∧ Divided opts os := by
  fun_induction walkOptions (fun l o => l ++ [o]) fuel l opts with
  | case1 l opts =>
    obtain rfl := length_eq_zero_iff.1 (Nat.le_zero.1 hfuel)
    exact ⟨[], (append_nil l).symm, .done⟩
  | case2 => exact ⟨[], (append_nil _).symm, .done⟩
  | case3 _ _ rest => exact ⟨[], (append_nil _).symm, .mark rest⟩
  | case4 _ _ _ _ ih =>
    obtain ⟨os, hos, hdiv⟩ := ih (Nat.le_of_succ_le_succ hfuel)
    exact ⟨os, hos, .nop hdiv⟩
  | case5 _ _ kind h0 h1 => exact ⟨[], (append_nil _).symm, .cut h0 h1⟩
  | case6 _ _ kind h0 h1 olen rest hbad =>
    rw [if_pos hbad]
    exact ⟨[], (append_nil _).symm, .bad h0 h1 hbad⟩
  | case7 _ l kind h0 h1 olen rest hfit ih =>
    rw [if_neg hfit]
    obtain ⟨n, hn⟩ : ∃ n, olen.toNat = n + 2 := ⟨olen.toNat - 2, by omega⟩
    obtain ⟨os, hos, hdiv⟩ := ih (by simp only [length_drop, length_cons] at *; omega)
    refine ⟨(kind :: olen :: rest).take olen.toNat :: os, by rw [hos, append_assoc]; rfl, ?_⟩
    simp only [hn, take_succ_cons, drop_succ_cons] at hdiv ⊢
    have hopt := @Divided.option kind olen (rest.take n) _ os h0 h1 ?_ hdiv
    · rwa [take_append_drop] at hopt
    · simp only [length_cons, length_take] at *
      omega

/-- They are pieces of the area, one behind the other. -/
theorem Divided.pieces {opts : List UInt8} {os : List (List UInt8)} (h : Divided opts os) :
    os.flatten <+ opts ∧
      ∀ o ∈ os, o <:+: opts ∧ 2 ≤ o.length ∧ o.length = (optByte o 1).toNat := by
  induction h with
  | done | mark | cut | bad => simp
  | nop _ ih =>
    exact ⟨ih.1.cons _, fun o ho => ⟨(ih.2 o ho).1.trans (suffix_cons ..).isInfix, (ih.2 o ho).2⟩⟩
  | @option kind olen body rest os _ _ hlen _ ih =>
    refine ⟨ih.1.append_left (kind :: olen :: body), forall_mem_cons.2 ⟨?_, fun o ho => ?_⟩⟩
    · exact ⟨( prefix_append (kind :: olen :: body) rest).isInfix, by simp, hlen⟩
    · exact ⟨(ih.2 o ho).1.trans (suffix_append (kind :: olen :: body) rest).isInfix,
        (ih.2 o ho).2⟩

/-- **The loop visits the options and nothing else**: they are pieces of the area that do not
overlap, each as long as its length byte says, and end at the first end mark or bad length. -/
theorem optionsOf_pieces {σ : Type} (f : σ → List UInt8 → σ) (s : σ) (opts : List UInt8) :
    parseOptions f s opts = (optionsOf opts).foldl f s ∧ (optionsOf opts).flatten <+ opts ∧
      (∀ o ∈ optionsOf opts, o <:+: opts ∧ 2 ≤ o.length ∧ o.length = (optByte o 1).toNat) ∧
      Divided opts (optionsOf opts) := by
  have hdiv : Divided opts (optionsOf opts) := by
    obtain ⟨os, hos, hdiv⟩ := walkOptions_divided opts.length [] opts le_rfl
    rwa [optionsOf, parseOptions, hos]
  exact ⟨parseOptions_eq_foldl f s opts, hdiv.pieces.1, hdiv.pieces.2, hdiv⟩

variable {α β : Type}

/-- A fold that some elements overwrite ends with the last of them. -/
theorem foldl_overwrite (p : α → Bool) (f : α → β) (l : List α) (b : β) :
    l.foldl (fun b a => if p a then f a else b) b = ((l.filter p).getLast?.map f).getD b := by
  induction l using reverseRecOn with
  | nil => rfl
  | append_singleton l a ih =>
    rw [foldl_append, foldl_cons, foldl_nil, ih]
    by_cases h : p a <;> simp [h]

theorem foldl_project {γ : Type} {f : β → α → β} {g : γ → α → γ} (π : β → γ)
    (h : ∀ b a, π (f b a) = g (π b) a) (l : List α) (b : β) :
    π (l.foldl f b) = l.foldl g (π b) := by
  induction l generalizing b with
  | nil => rfl
  | cons a l ih => rw [foldl_cons, foldl_cons, ih, h]

section

variable (o : List UInt8)

/-- A window scale option. -/
def isScale : Bool := optByte o 0 = 3 ∧ (optByte o 1).toNat = 3

/-- The shift it asks for. -/
def scaleOf : ℕ := if (optByte o 2).toNat > 14 then 14 else (optByte o 2).toNat

/-- An option with SACK blocks. -/
def isSack : Bool := optByte o 0 = 5 ∧ (optByte o 1).toNat ≥ 10

/-- Its blocks. -/
def sackOf : List (BitVec 32 × BitVec 32) :=
  (List.range (if ((optByte o 1).toNat - 2) / 8 > 4 then 4 else ((optByte o 1).toNat - 2) / 8)).map
    fun j => (opt32 o (2 + j * 8), opt32 o (6 + j * 8))

/-- A timestamp option. -/
def isStamp : Bool := optByte o 0 = 8 ∧ (optByte o 1).toNat = 10

end

/-- The later of two timestamps, as `parse_tcp_options_ex` compares them. -/
def laterStamp (r : BitVec 32) (o : List UInt8) : BitVec 32 :=
  if isStamp o then (if before (opt32 o 2) r then r else opt32 o 2) else r

theorem connOption_eq (x : NetTcp × Option (BitVec 32 × BitVec 32)) (o : List UInt8) :
    connOption x o =
      if isScale o then ({ x.1 with sndWscale := scaleOf o, wscaleOk := true }, x.2)
      else if isSack o then ({ x.1 with sack := sackOf o }, x.2)
      else if isStamp o then
        ({ x.1 with tsEnabled := true, tsRecent := laterStamp x.1.tsRecent o },
          some (opt32 o 2, opt32 o 6))
      else x := by
  unfold connOption laterStamp
  simp only [isScale, isSack, isStamp, scaleOf, sackOf, decide_eq_true_eq]
  split
  · rfl
  · split
    · rfl
    · split <;> rfl

section

variable (c : NetTcp) (opts : List UInt8)

theorem scale_parse :
    ((parseTcpOptions c opts).1.wscaleOk, (parseTcpOptions c opts).1.sndWscale) =
      ((((optionsOf opts).filter isScale).getLast?).map fun o => (true, scaleOf o)).getD
        (c.wscaleOk, c.sndWscale) := by
  rw [parseTcpOptions, parseOptions_eq_foldl, ← foldl_overwrite]
  refine foldl_project (fun x : NetTcp × Option (BitVec 32 × BitVec 32) =>
    (x.1.wscaleOk, x.1.sndWscale)) (fun x o => ?_) _ (c, none)
  rw [connOption_eq]
  repeat' split
  all_goals rfl

theorem isScale_of_isSack {o : List UInt8} (h : isSack o) : ¬ isScale o := by
  simp only [isScale, isSack, decide_eq_true_eq] at *
  rintro ⟨h3, -⟩
  rw [h3] at h
  exact absurd h.1 (by decide)

theorem not_isScale_of_isStamp {o : List UInt8} (h : isStamp o) : ¬ isScale o ∧ ¬ isSack o := by
  simp only [isScale, isSack, isStamp, decide_eq_true_eq] at *
  rw [h.1]
  exact ⟨fun hk => absurd hk.1 (by decide), fun hk => absurd hk.1 (by decide)⟩

theorem sack_parse :
    (parseTcpOptions c opts).1.sack =
      ((((optionsOf opts).filter isSack).getLast?).map sackOf).getD c.sack := by
  rw [parseTcpOptions, parseOptions_eq_foldl, ← foldl_overwrite]
  refine foldl_project (fun x : NetTcp × Option (BitVec 32 × BitVec 32) => x.1.sack)
    (fun x o => ?_) _ (c, none)
  rw [connOption_eq]
  by_cases hk : isSack o
  · rw [if_neg (isScale_of_isSack hk), if_pos hk, if_pos hk]
  · repeat' split
    all_goals rfl

theorem tsRecent_parse :
    (parseTcpOptions c opts).1.tsRecent = (optionsOf opts).foldl laterStamp c.tsRecent := by
  rw [parseTcpOptions, parseOptions_eq_foldl]
  refine foldl_project (fun x : NetTcp × Option (BitVec 32 × BitVec 32) => x.1.tsRecent)
    (fun x o => ?_) _ (c, none)
  rw [connOption_eq]
  by_cases hk : isStamp o
  · rw [if_neg (not_isScale_of_isStamp hk).1, if_neg (not_isScale_of_isStamp hk).2, if_pos hk]
  · rw [if_neg hk, laterStamp]
    repeat' split
    all_goals rfl

end

/-! ## `SYN_SENT` -/

@[simp] theorem state_cancel (c : NetTcp) : (tcpCancelRetx c).state = c.state := by
  rw [tcpCancelRetx]
  split <;> rfl

variable (env : TcpEnv)

theorem state_newAck (c : NetTcp) (ts : Option (BitVec 32 × BitVec 32)) (g : Segment)
    : (newAck env c ts g).state = c.state := by
  have hm : (measureRto env { c with sndUna := g.ack } ts).state = c.state := by
    unfold measureRto
    split
    · rfl
    · dsimp only
      split <;> rfl
  have ht : ∀ d : NetTcp, (ackTimer d).state = d.state := by
    intro d
    rw [ackTimer]
    split
    · exact state_cancel d
    · rfl
  have he : ∀ d : NetTcp, (ackEcn env d g).state = d.state := by
    intro d
    rw [ackEcn]
    split <;> split <;> rfl
  exact (he _).trans ((ht _).trans hm)

@[simp] theorem state_sendEmpty (c : NetTcp) (flags : UInt8) :
    (sendEmpty env c flags).1.state = c.state := rfl

theorem state_dupAck (c : NetTcp) : (dupAck env c).1.state = c.state := by
  rw [dupAck]
  split
  · rw [state_sendEmpty]
  · split <;> rfl

variable {c : NetTcp}

theorem state_ackInput4 (hc : c.state = .synSent) (ts : Option (BitVec 32 × BitVec 32))
    (g : Segment) : (ackInput4 env c ts g).1.state = .synSent := by
  rw [ackInput4]
  split
  · have key : (if after g.ack c.sndUna then (newAck env c ts g, [])
        else if g.ack = c.sndUna ∧ g.payload = [] then dupAck env c else (c, [])).1.state =
        .synSent := by
      split
      · exact (state_newAck env c ts g).trans hc
      · split
        · exact (state_dupAck env c).trans hc
        · exact hc
    dsimp only
    rw [ackState4]
    simp [key]
  · exact hc

theorem state_dataInput4 (c : NetTcp) (g : Segment) : (dataInput4 env c g).1.state = c.state := by
  have hooo : (oooInsert env c g.seq g.payload).state = c.state := by
    rw [oooInsert]
    repeat' split
    all_goals rfl
  rw [dataInput4]
  split
  · rfl
  · split
    · rfl
    · split
      · exact hooo
      · rfl

theorem state_finInput (hc : c.state = .synSent) (g : Segment) :
    (finInput env c g).1.state = .synSent := by
  rw [finInput]
  split
  · exact hc
  · split
    · exact hc
    · simp [hc]

theorem state_input6 (hc : c.state = .synSent) (g : Segment) :
    (dataInput6 env (ackInput6 c g) g).1.state = .synSent := by
  have hack : (ackInput6 c g).state = .synSent := by
    rw [ackInput6]
    split
    · simp [hc]
    · exact hc
  rw [dataInput6]
  split
  · exact hack
  · exact hack

variable {g : Segment}

/-- A segment that is no SYN-ACK leaves `SYN_SENT` only by a reset. -/
theorem state_tcpInput4 (hc : c.state = .synSent) (ce : Bool) (hg : g.flags &&& 0x12 ≠ 0x12)
    : (tcpInput4 env c ce g).1.state ≠ .established := by
  have hkeep := (parse_keeps c g.opts).1
  rw [tcpInput4]
  generalize parseTcpOptions c g.opts = p at hkeep ⊢
  have hp : (ecnMark p.1 ce).state = .synSent := by rw [state_ecnMark, hkeep, hc]
  split
  · simp [hkeep, hc]
  rw [if_neg fun h => hg h.2]
  split
  · simp [reset4]
  · have hack := state_ackInput4 env hp p.2 g
    have hdata := (state_dataInput4 env (ackInput4 env (ecnMark p.1 ce) p.2 g).1 g).trans hack
    have hfin := state_finInput env hdata g
    show (finInput env _ g).1.state ≠ _
    rw [show (andThen (ackInput4 env (ecnMark p.1 ce) p.2 g) fun c => dataInput4 env c g).1 =
      (dataInput4 env (ackInput4 env (ecnMark p.1 ce) p.2 g).1 g).1 from rfl, hfin]
    simp

theorem state_tcpInput6 (hc : c.state = .synSent) (hg : g.flags &&& 0x12 ≠ 0x12)
    : (tcpInput6 env c g).1.state ≠ .established := by
  rw [tcpInput6, if_neg fun h => hg h.2]
  split
  · simp [reset6]
  · have hfin := state_finInput env (state_input6 env hc g) g
    show (finInput env _ g).1.state ≠ _
    rw [hfin]
    simp

theorem synAck4_of_synSent (hc : c.state = .synSent) (ce : Bool) (hg : g.flags &&& 0x12 = 0x12) :
    (tcpInput4 env c ce g).1.state = .established := by
  have hkeep := (parse_keeps c g.opts).1
  rw [tcpInput4]
  generalize parseTcpOptions c g.opts = p at hkeep ⊢
  -- the timestamp test is for synchronized states
  have hpaws : pawsRejects p.1 p.2 g = false := by
    unfold pawsRejects
    split
    · rfl
    · simp [hkeep, hc, TcpState.synchronized]
  rw [if_neg (by simp [hpaws]), if_pos ⟨by rw [state_ecnMark, hkeep, hc], hg⟩]
  rfl

variable {iss : BitVec 32}

theorem atIss_send (data : List UInt8) (h : c.state = .synSent → c.sndNxt = iss) :
    (netTcpSend env c data).2.1.state = .synSent → (netTcpSend env c data).2.1.sndNxt = iss := by
  by_cases hc : c.state = .established
  · intro hs
    have hlive := (SameSend.afterLoop env hc data).live
      (by rw [(sendLoop_keeps env (effWnd c) data.length c data 0).2.2.2, hc]; decide)
    exact absurd hs hlive
  · rwa [netTcpSend_of_ne env hc]

theorem atIss_recv (bufsize : ℤ) (h : c.state = .synSent → c.sndNxt = iss) :
    (netTcpRecv env c bufsize).2.2.1.state = .synSent →
      (netTcpRecv env c bufsize).2.2.1.sndNxt = iss := by
  rw [netTcpRecv]
  dsimp only
  repeat' split
  all_goals exact h

theorem atIss_timer (h : c.state = .synSent → c.sndNxt = iss) :
    (netTcpRetransmit env c).1.state = .synSent → (netTcpRetransmit env c).1.sndNxt = iss := by
  rw [netTcpRetransmit]
  split
  · exact h
  split
  · -- the retries are used up
    intro hs
    exact absurd (show TcpState.closed = .synSent from hs) (by decide)
  · split
    · intro hs
      exact h ‹_›
    · split
      case isTrue hdata =>
        intro hs
        have hne : c.state ≠ .synSent := ‹_›
        exact absurd hs ((SameSend.backoff env _).live hne)
      · exact h

/-- What can happen to a connection. -/
inductive ConnOp where
  | input4 (env : TcpEnv) (ce : Bool) (g : Segment)
  | input6 (env : TcpEnv) (g : Segment)
  | send (env : TcpEnv) (data : List UInt8)
  | recv (env : TcpEnv) (bufsize : ℤ)
  | timer (env : TcpEnv)

/-- The connection afterwards. -/
def connNext (c : NetTcp) : ConnOp → NetTcp
  | .input4 env ce g => (tcpInput4 env c ce g).1
  | .input6 env g => (tcpInput6 env c g).1
  | .send env data => (netTcpSend env c data).2.1
  | .recv env bufsize => (netTcpRecv env c bufsize).2.2.1
  | .timer env => (netTcpRetransmit env c).1

/-- Whatever keeps the send side also keeps "in `SYN_SENT` the next number is the first". -/
theorem Received.atIss {c' : NetTcp} (hr : Received c g c')
    (h : c.state = .synSent → c.sndNxt = iss) : c'.state = .synSent → c'.sndNxt = iss := by
  intro hc'
  have hc : c.state = .synSent := by
    by_contra hne
    exact hr.live hne hc'
  exact hr.nxt.trans (h hc)

theorem atIss_next (c : NetTcp) (op : ConnOp) (h : c.state = .synSent → c.sndNxt = iss) :
    (connNext c op).state = .synSent → (connNext c op).sndNxt = iss := by
  cases op with
  | input4 env ce g =>
    by_cases hs : c.state = .synSent ∧ g.flags &&& 0x12 = 0x12
    · -- the handshake ends here
      have hest := (synAck4_of_synSent env hs.1 ce hs.2)
      intro hsyn
      exact absurd (hest.symm.trans hsyn) (by decide)
    · exact (Received.input4 env ce fun hc hg => hs ⟨hc, hg⟩).atIss h
  | input6 env g =>
    by_cases hs : c.state = .synSent ∧ g.flags &&& 0x12 = 0x12
    · intro hsyn
      have hest : (tcpInput6 env c g).1.state = .established := by
        rw [tcpInput6, if_pos hs]
        rfl
      exact absurd (hest.symm.trans hsyn) (by decide)
    · exact (Received.input6 env fun hc hg => hs ⟨hc, hg⟩).atIss h
  | send env data => exact atIss_send env data h
  | recv env bufsize => exact atIss_recv env bufsize h
  | timer env => exact atIss_timer env h

/-- **In `SYN_SENT` the next number is the initial one**, whatever has arrived since. -/
theorem sndNxt_of_synSent (hc : ¬ c.state.synchronized) (hs : c.state ≠ .synSent)
    (hr : c.gotRst = false) (iss : BitVec 32) (pages : Option (List UInt8)) (ops : List ConnOp) :
    let d := run connNext (netTcpConnect env c iss pages true).2.1 ops
    d.state = .synSent → d.sndNxt = iss := by
  have hstart : (netTcpConnect env c iss pages true).2.1.state = .synSent →
      (netTcpConnect env c iss pages true).2.1.sndNxt = iss := by
    intro _
    rw [netTcpConnect, if_neg hc, if_neg hs, if_neg (by simp [hr])]
    rfl
  have hstep : ∀ (d : NetTcp) (op : ConnOp), (d.state = .synSent → d.sndNxt = iss) →
      (connNext d op).state = .synSent → (connNext d op).sndNxt = iss := atIss_next
  exact run_keeps hstep hstart ops

theorem sndNxt_of_synSent_timer :
    (run connNext (netTcpConnect ⟨0, true, true⟩ zeroTcp 1000 none true).2.1
      [.timer ⟨5, true, true⟩]).sndNxt = 1000 :=
  sndNxt_of_synSent _ (by decide) (by decide) rfl 1000 none [.timer ⟨5, true, true⟩] (by decide)

/-! ## The property -/

section

variable (c : NetTcp) (g : Segment)

/-- From `SYN_SENT` to `ESTABLISHED` only by a SYN-ACK of the initial number plus one; until then
`snd_nxt` is the initial number. -/
def SynAckOfIss (c' : NetTcp) : Prop :=
  c.state = .synSent → c'.state = .established → g.flags &&& 0x12 = 0x12 ∧ g.ack = c.sndNxt + 1

/-- The number lies in the receive window. -/
def InWindow : Prop := (g.seq - c.rcvNxt).toNat < rxringFree c.rx

/-- After the handshake, a reset closes only from within the window. -/
def ResetInWindow (c' : NetTcp) : Prop :=
  c.state ≠ .synSent → c.state ≠ .closed → g.has 0x04 → c'.state = .closed → InWindow c g

/-- The PAWS test of `tcp_input` rejects the segment. -/
def Rejected : Prop :=
  pawsRejects (parseTcpOptions c g.opts).1 (parseTcpOptions c g.opts).2 g

/-- A rejected segment changes nothing. -/
def RejectedKeeps (c' : NetTcp) : Prop :=
  Rejected c g →
    c'.state = c.state ∧ c'.sndUna = c.sndUna ∧ c'.sndWnd = c.sndWnd ∧
    (c'.wscaleOk, c'.sndWscale) = (c.wscaleOk, c.sndWscale) ∧ c'.tsRecent = c.tsRecent ∧
    c'.sack = c.sack

/-! ## The condition -/

/-- A SYN-ACK that is acted on acknowledges the SYN. -/
def SynAckOk : Prop :=
  c.state = .synSent → g.flags &&& 0x12 = 0x12 → g.ack = c.sndNxt + 1

/-- A reset after the handshake lies in the window. -/
def ResetOk : Prop :=
  c.state ≠ .synSent → c.state ≠ .closed → g.has 0x04 → InWindow c g

/-- The options of a rejected segment repeat what is known: its last window scale and its last
SACK blocks are the ones in force, and none of its timestamps wins over `ts_recent`. -/
def OptionsOk : Prop :=
  Rejected c g →
    (∀ o ∈ ((optionsOf g.opts).filter isScale).getLast?, (true, scaleOf o) =
      (c.wscaleOk, c.sndWscale)) ∧
    (optionsOf g.opts).foldl laterStamp c.tsRecent = c.tsRecent ∧
    ∀ o ∈ ((optionsOf g.opts).filter isSack).getLast?, sackOf o = c.sack

end

theorem getD_map_eq_iff (o : Option α) (f : α → β) (b : β) :
    (o.map f).getD b = b ↔ ∀ a ∈ o, f a = b := by
  cases o <;> simp

section

variable (c : NetTcp) (ce : Bool) (g : Segment)

theorem synAckOfIss4_iff : SynAckOfIss c g (tcpInput4 env c ce g).1 ↔ SynAckOk c g := by
  constructor
  · intro h hc hg
    exact (h hc (synAck4_of_synSent env hc ce hg)).2
  · intro h hc hest
    by_cases hg : g.flags &&& 0x12 = 0x12
    · exact ⟨hg, h hc hg⟩
    · exact absurd hest (state_tcpInput4 env hc ce hg)

theorem synAckOfIss6_iff (c : NetTcp) (g : Segment) :
    SynAckOfIss c g (tcpInput6 env c g).1 ↔ SynAckOk c g := by
  constructor
  · intro h hc hg
    refine (h hc ?_).2
    rw [tcpInput6, if_pos ⟨hc, hg⟩]
    rfl
  · intro h hc hest
    by_cases hg : g.flags &&& 0x12 = 0x12
    · exact ⟨hg, h hc hg⟩
    · exact absurd hest (state_tcpInput6 env hc hg)

theorem resetInWindow4_iff : ResetInWindow c g (tcpInput4 env c ce g).1 ↔ ResetOk c g := by
  constructor
  · intro h hc hopen hrst
    have hkeep := (parse_keeps c g.opts).1
    refine h hc hopen hrst ?_
    rw [tcpInput4]
    generalize parseTcpOptions c g.opts = p at hkeep ⊢
    have hpaws : pawsRejects p.1 p.2 g = false := by
      unfold pawsRejects
      split
      · rfl
      · simp [hrst]
    rw [if_neg (by simp [hpaws]), if_neg fun hs => hc (by rw [← hs.1, state_ecnMark, hkeep]),
      if_pos hrst]
    rfl
  · intro h hc hopen hrst _
    exact h hc hopen hrst

theorem resetInWindow6_iff (c : NetTcp) (g : Segment) :
    ResetInWindow c g (tcpInput6 env c g).1 ↔ ResetOk c g := by
  constructor
  · intro h hc hopen hrst
    refine h hc hopen hrst ?_
    rw [tcpInput6, if_neg fun hs => hc hs.1, if_pos hrst]
    rfl
  · intro h hc hopen hrst _
    exact h hc hopen hrst

theorem rejectedKeeps_iff : RejectedKeeps c g (tcpInput4 env c ce g).1 ↔ OptionsOk c g := by
  refine imp_congr_right fun hrej => ?_
  obtain ⟨hstate, huna, hwnd⟩ := parse_keeps c g.opts
  -- only the options have been applied
  have hin : (tcpInput4 env c ce g).1 = (sendEmpty env (parseTcpOptions c g.opts).1 0x10).1 := by
    rw [tcpInput4]
    rw [if_pos (show pawsRejects _ _ g = true from hrej)]
  rw [hin, ← getD_map_eq_iff, ← getD_map_eq_iff, ← scale_parse, ← sack_parse, ← tsRecent_parse]
  constructor
  · rintro ⟨-, -, -, hscale, hts, hsack⟩
    exact ⟨hscale, hts, hsack⟩
  · rintro ⟨hscale, hts, hsack⟩
    exact ⟨hstate, huna, hwnd, hscale, hts, hsack⟩

end

/-- **Which segments are acted on.**  For every connection and every segment, over IPv4 and
IPv6: the connection acts on acceptable segments only exactly under the condition.  IPv6 makes no
timestamp test. -/
theorem acts_on_acceptable (env : TcpEnv) (c : NetTcp) (ce : Bool) (g : Segment) :
    ((SynAckOfIss c g (tcpInput4 env c ce g).1 ∧ ResetInWindow c g (tcpInput4 env c ce g).1 ∧
        RejectedKeeps c g (tcpInput4 env c ce g).1) ↔
      SynAckOk c g ∧ ResetOk c g ∧ OptionsOk c g) ∧
    ((SynAckOfIss c g (tcpInput6 env c g).1 ∧ ResetInWindow c g (tcpInput6 env c g).1) ↔
      SynAckOk c g ∧ ResetOk c g) := by
  rw [synAckOfIss4_iff, resetInWindow4_iff, rejectedKeeps_iff, synAckOfIss6_iff, resetInWindow6_iff]
  exact ⟨Iff.rfl, Iff.rfl⟩

/-- A connection that has sent its SYN with number 1000. -/
def synSentTcp : NetTcp := { zeroTcp with state := .synSent, sndNxt := 1000, sndUna := 1000 }

/-- An established connection that expects number 5000 and has seen timestamp 100. -/
def stampedTcp : NetTcp :=
  { zeroTcp with
    state := .established
    rcvNxt := 5000
    rx := ⟨some (List.replicate NET_TCP_RXBUF 0), 0, 0⟩
    tsEnabled := true
    tsRecent := 100 }

/-- A SYN-ACK of number 7 opens the connection; a reset 100000 bytes ahead of the window closes
it, both over IPv4 and IPv6; and a segment that is rejected for its timestamp 50 has by then set
the window scale to 9. -/
theorem acts_on_unacceptable :
    (tcpInput4 ⟨0, true, true⟩ synSentTcp false ⟨80, 50000, 3000, 7, 0x12, 512, [], []⟩).1.state =
      .established ∧
    (tcpInput6 ⟨0, true, true⟩ synSentTcp ⟨80, 50000, 3000, 7, 0x12, 512, [], []⟩).1.state =
      .established ∧
    ¬ SynAckOk synSentTcp ⟨80, 50000, 3000, 7, 0x12, 512, [], []⟩ ∧
    (tcpInput4 ⟨0, true, true⟩ stampedTcp false ⟨80, 50000, 105000, 0, 0x04, 512, [], []⟩).1.state =
      .closed ∧
    (tcpInput6 ⟨0, true, true⟩ stampedTcp ⟨80, 50000, 105000, 0, 0x04, 512, [], []⟩).1.state =
      .closed ∧
    ¬ InWindow stampedTcp ⟨80, 50000, 105000, 0, 0x04, 512, [], []⟩ ∧
    Rejected stampedTcp
      ⟨80, 50000, 5000, 0, 0x10, 512, [3, 3, 9, 1, 8, 10, 0, 0, 0, 50, 0, 0, 0, 0, 0, 0], []⟩ ∧
    (tcpInput4 ⟨0, true, true⟩ stampedTcp false
      ⟨80, 50000, 5000, 0, 0x10, 512, [3, 3, 9, 1, 8, 10, 0, 0, 0, 50, 0, 0, 0, 0, 0, 0],
        []⟩).1.sndWscale = 9 := by
  refine ⟨by decide +kernel, by decide +kernel, ?_, by decide +kernel, by decide +kernel, ?_, ?_,
    by decide +kernel⟩
  · intro h
    exact absurd (h rfl (by decide)) (by decide)
  · rw [InWindow]
    decide +kernel
  · rw [Rejected]
    decide +kernel

end CosmoRT.Net
