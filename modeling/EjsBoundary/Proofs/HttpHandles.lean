import EjsBoundary.Model.HttpHandles

/-!
# `EjsBoundary.Proofs.HttpHandles`: every handle of a request is released once

For every `Network`, that is for every choice of what each call of `tcp_connect` and
`https_request` returns, the trace of a whole chain of redirects is well managed
(`httpsRequestCalls_wellManaged`): every handle is released exactly once, none is used or released
when it is not open, and no two requests of the chain have handles open together.

The proof goes through the source in its own order, one lemma for each piece. `At` says which
handles of the request are held and which kinds may be spent already. `Owned` is what the handler
of `https_request` relies on: whenever something is thrown, the variables hold exactly the handles
that are held.

`httpsRequestCalls_eq` connects this model with the one without handles.
-/

set_option autoImplicit false

namespace EjsBoundary.Proofs

open EjsBoundary.Lib
open EjsBoundary.Model

/-! ### Where the handles are -/

/-- The handles that are held belong to one request. -/
def SameRequest (l : Ledger Handle) : Prop :=
  l.inside = [] ∧ ∀ g ∈ l.held, ∀ h ∈ l.held, g.request = h.request

/-- Exactly these handles are held. -/
def HeldIs (held : List Handle) (l : Ledger Handle) : Prop := l.held = held ∧ l.inside = []

/-- Request `d` holds the handles of these kinds, and those that are spent belong to requests
before it or are of its own spent kinds. -/
def At (d : Nat) (kinds : List HandleKind) (spent : HandleKind → Prop) (l : Ledger Handle) : Prop :=
  HeldIs (kinds.map (Handle.mk d)) l ∧ ∀ g ∈ l.spent, g.request < d ∨ (g.request = d ∧ spent g.kind)

/-- Handles of one request are handles of one request. -/
theorem HeldIs.sameRequest {d : Nat} {kinds : List HandleKind} {l : Ledger Handle}
    (h : HeldIs (kinds.map (Handle.mk d)) l) : SameRequest l := by
  refine ⟨h.2, fun g hg g' hg' => ?_⟩
  rw [h.1] at hg hg'
  obtain ⟨k, -, rfl⟩ := List.mem_map.mp hg
  obtain ⟨k', -, rfl⟩ := List.mem_map.mp hg'
  rfl

/-- More kinds may be called spent. -/
theorem At.weaken {d : Nat} {kinds : List HandleKind} {spent spent' : HandleKind → Prop}
    {l : Ledger Handle} (h : At d kinds spent l) (hs : ∀ k, spent k → spent' k) :
    At d kinds spent' l :=
  ⟨h.1, fun g hg => (h.2 g hg).imp id fun hk => ⟨hk.1, hs _ hk.2⟩⟩

/-! ### Events -/

section
variable {σ : Type} {d : Nat} {kinds : List HandleKind} {spent : HandleKind → Prop} {k : HandleKind}
  {P : σ → Prop} {exc : Bytes → Ledger Handle → σ → Prop} {nev : Ledger Handle → Prop}

/-- A handle of a kind that is new to the request can be acquired. -/
theorem meets_acquire (hheld : k ∉ kinds) (hspent : ¬ spent k) :
    Meets SameRequest (fun l s => At d kinds spent l ∧ P s) (Prog.emit (.acquire ⟨d, k⟩))
      (fun _ l s => At d (k :: kinds) spent l ∧ P s) exc nev := by
  refine Meets.emit fun l s ⟨⟨⟨hl, hinside⟩, hs⟩, hP⟩ => ?_
  have hnew : (⟨d, k⟩ : Handle) ∉ l.places := by
    rw [Ledger.places, hl, hinside, List.map_nil, List.nil_append, List.mem_append]
    intro hmem
    rcases hmem with hmem | hmem
    · obtain ⟨k', hk', heq⟩ := List.mem_map.mp hmem
      exact hheld ((Handle.mk.inj heq).2 ▸ hk')
    · rcases hs _ hmem with hlt | ⟨-, hk⟩
      · exact Nat.lt_irrefl d hlt
      · exact hspent hk
  have hheld' : HeldIs ((k :: kinds).map (Handle.mk d)) { l with held := ⟨d, k⟩ :: l.held } :=
    ⟨by rw [List.map_cons, hl], hinside⟩
  exact ⟨{ l with held := ⟨d, k⟩ :: l.held }, if_neg hnew, hheld'.sameRequest, ⟨hheld', hs⟩, hP⟩

/-- A held handle can be used. -/
theorem meets_use (hheld : k ∈ kinds) :
    Meets SameRequest (fun l s => At d kinds spent l ∧ P s) (Prog.emit (.use ⟨d, k⟩))
      (fun _ l s => At d kinds spent l ∧ P s) exc nev := by
  refine Meets.emit fun l s ⟨hat, hP⟩ => ?_
  have hmem : (⟨d, k⟩ : Handle) ∈ l.held := by
    rw [hat.1.1]
    exact List.mem_map_of_mem hheld
  exact ⟨l, if_pos hmem, hat.1.sameRequest, hat, hP⟩

/-- A held handle can be released. -/
theorem meets_release (hheld : k ∈ kinds) :
    Meets SameRequest (fun l s => At d kinds spent l ∧ P s) (Prog.emit (.release ⟨d, k⟩))
      (fun _ l s => At d (kinds.erase k) (fun k' => spent k' ∨ k' = k) l ∧ P s) exc nev := by
  refine Meets.emit fun l s ⟨⟨⟨hl, hinside⟩, hs⟩, hP⟩ => ?_
  have hmem : (⟨d, k⟩ : Handle) ∈ l.held := by
    rw [hl]
    exact List.mem_map_of_mem hheld
  have hinj : Function.Injective (Handle.mk d) := fun a b hab => (Handle.mk.inj hab).2
  let l' : Ledger Handle :=
    { held := l.held.erase ⟨d, k⟩
      inside := l.inside.filter fun p => p.2 ≠ ⟨d, k⟩
      spent := ⟨d, k⟩ :: (l.contents ⟨d, k⟩ ++ l.spent) }
  have hheld' : HeldIs ((kinds.erase k).map (Handle.mk d)) l' := by
    refine ⟨?_, ?_⟩
    · show l.held.erase ⟨d, k⟩ = _
      rw [hl, List.map_erase hinj]
    · show l.inside.filter _ = []
      rw [hinside, List.filter_nil]
  refine ⟨l', if_pos hmem, hheld'.sameRequest, ⟨hheld', fun g hg => ?_⟩, hP⟩
  have hg' : g = ⟨d, k⟩ ∨ g ∈ l.spent := by
    have hspent : l'.spent = ⟨d, k⟩ :: l.spent := by
      show _ :: (l.contents ⟨d, k⟩ ++ l.spent) = _
      rw [Ledger.contents, hinside]
      rfl
    rw [hspent] at hg
    exact List.mem_cons.mp hg
  rcases hg' with rfl | hg'
  · exact Or.inr ⟨rfl, Or.inr rfl⟩
  · exact (hs g hg').imp id fun hk => ⟨hk.1, Or.inl hk.2⟩

end

/-! ### `tcp_connect` -/

section
variable {σ : Type} {d : Nat} {P : σ → Prop}

/-- The sockets of the first addresses. -/
def SocketBefore (i : Nat) (k : HandleKind) : Prop := ∃ j < i, k = .socket j

/-- After an address was tried its socket is spent too. -/
theorem socketBefore_succ {i : Nat} {k : HandleKind} (h : SocketBefore i k ∨ k = .socket i) :
    SocketBefore (i + 1) k := by
  rcases h with ⟨j, hj, rfl⟩ | rfl
  · exact ⟨j, Nat.lt_succ_of_lt hj, rfl⟩
  · exact ⟨i, Nat.lt_succ_self i, rfl⟩

/-- The socket of the next address is new. -/
theorem not_socketBefore (i : Nat) : ¬ SocketBefore i (.socket i) := by
  intro ⟨j, hj, heq⟩
  rw [HandleKind.socket.injEq] at heq
  omega

/-- After the loop over the addresses only the connected socket is left of those it made. -/
def Tried (d : Nat) (P : σ → Prop) (fd : Option Handle) (l : Ledger Handle) (s : σ) : Prop :=
  (match fd with
    | none => ∃ n, At d [.addrinfo, .ctx] (SocketBefore n) l
    | some fd => ∃ n, fd = ⟨d, .socket n⟩ ∧ At d [.socket n, .addrinfo, .ctx] (SocketBefore n) l) ∧
  P s

/-- The loop over the addresses leaves the socket that is connected, or none. -/
theorem meets_tryAddresses {exc : Bytes → Ledger Handle → σ → Prop} {nev : Ledger Handle → Prop}
    (addresses : List AddressOutcome) (i : Nat) :
    Meets SameRequest (fun l s => At d [.addrinfo, .ctx] (SocketBefore i) l ∧ P s)
      (tryAddresses d i addresses) (Tried d P) exc nev := by
  induction addresses generalizing i with
  | nil => exact Meets.ret fun l s ⟨hat, hP⟩ => ⟨⟨i, hat⟩, hP⟩
  | cons p rest ih =>
    have hnext : ∀ spent : HandleKind → Prop, (∀ k, spent k → SocketBefore (i + 1) k) →
        Meets SameRequest (fun l s => At d [.addrinfo, .ctx] spent l ∧ P s)
          (tryAddresses d (i + 1) rest) (Tried d P) exc nev := by
      intro spent hspent
      exact (ih (i + 1)).weaken (fun l s ⟨hat, hP⟩ => ⟨hat.weaken hspent, hP⟩)
        (fun _ _ _ h => h) (fun _ _ _ h => h) (fun _ h => h)
    rw [tryAddresses]
    refine Meets.bind (meets_use (by simp)) fun _ => ?_
    by_cases hsocket : p.socket = true
    · rw [if_pos hsocket]
      refine Meets.bind (meets_acquire (by simp) (not_socketBefore i)) fun _ => ?_
      refine Meets.bind (meets_use (by simp)) fun _ => ?_
      refine Meets.bind (meets_use (by simp)) fun _ => ?_
      by_cases hconnect : p.connect = true
      · rw [if_pos hconnect]
        exact Meets.ret fun l s ⟨hat, hP⟩ => ⟨⟨i, rfl, hat⟩, hP⟩
      · -- The socket is closed before the next address is tried.
        rw [if_neg hconnect]
        refine Meets.bind (meets_release (by simp)) fun _ => ?_
        rw [List.erase_cons_head]
        exact hnext _ fun k => socketBefore_succ
    · rw [if_neg hsocket]
      exact hnext _ fun k hk => socketBefore_succ (Or.inl hk)

/-- `tcp_connect` releases the address list, and keeps a socket only when it returns it. -/
theorem meets_tcpConnect {nev : Ledger Handle → Prop} (host : Bytes)
    (getaddrinfo : Except Bytes (List AddressOutcome)) :
    Meets SameRequest (fun l s => At d [.ctx] (fun _ => False) l ∧ P s)
      (tcpConnect d host getaddrinfo)
      (fun fd l s => (∃ n, fd = ⟨d, .socket n⟩ ∧ At d [.socket n, .ctx] (· ≠ .ssl) l) ∧ P s)
      (fun _ l s => At d [.ctx] (· ≠ .ssl) l ∧ P s) nev := by
  have hspent : ∀ n k, SocketBefore n k ∨ k = .addrinfo → k ≠ .ssl := by
    intro n k hk heq
    subst heq
    rcases hk with ⟨j, -, hj⟩ | hk
    · cases hj
    · cases hk
  cases getaddrinfo with
  | error text => exact Meets.throw fun l s ⟨hat, hP⟩ => ⟨hat.weaken fun k hk => hk.elim, hP⟩
  | ok addresses =>
    rw [tcpConnect]
    refine Meets.bind (meets_acquire (by simp) id) fun _ => ?_
    refine Meets.bind (M := Tried d P) ?_ fun fd => ?_
    · refine (meets_tryAddresses addresses 0).weaken (fun l s ⟨hat, hP⟩ => ?_)
        (fun _ _ _ h => h) (fun _ _ _ h => h) (fun _ h => h)
      exact ⟨hat.weaken fun k hk => hk.elim, hP⟩
    · cases fd with
      | none =>
        refine Meets.bind (M := fun _ l s => At d [.ctx] (· ≠ .ssl) l ∧ P s) ?_ fun _ => ?_
        · intro l s ⟨⟨n, hat⟩, hP⟩
          exact (meets_release (P := P) (by simp)).weaken (fun _ _ h => h)
            (fun _ l s ⟨h, hP⟩ => ⟨h.weaken (hspent n), hP⟩) (fun _ _ _ h => h) (fun _ h => h)
            l s ⟨hat, hP⟩
        · exact Meets.throw fun l s h => h
      | some fd =>
        refine Meets.bind (M := fun _ l s =>
          (∃ n, fd = ⟨d, .socket n⟩ ∧ At d [.socket n, .ctx] (· ≠ .ssl) l) ∧ P s) ?_ fun _ => ?_
        · intro l s ⟨⟨n, hfd, hat⟩, hP⟩
          exact (meets_release (P := P) (by simp)).weaken (fun _ _ h => h)
            (fun _ l s ⟨h, hP⟩ => ⟨⟨n, hfd, h.weaken (hspent n)⟩, hP⟩) (fun _ _ _ h => h)
            (fun _ h => h) l s ⟨hat, hP⟩
        · exact Meets.ret fun l s h => h

end

/-! ### `https_request` -/

section
variable {σ : Type} {d n : Nat} {P : σ → Prop} {spent : HandleKind → Prop}

/-- Working on the connection changes nothing. -/
theorem meets_useConnection {exc : Bytes → Ledger Handle → σ → Prop} {nev : Ledger Handle → Prop} :
    Meets SameRequest (fun l s => At d [.ssl, .socket n, .ctx] spent l ∧ P s)
      (useConnection ⟨d, .ssl⟩ ⟨d, .socket n⟩)
      (fun _ l s => At d [.ssl, .socket n, .ctx] spent l ∧ P s) exc nev := by
  unfold useConnection
  refine Meets.bind (meets_use (by simp)) fun _ => ?_
  exact meets_use (by simp)

/-- The write loop uses the connection and leaves the handles as they were, also when it throws. -/
theorem meets_writeLoop {nev : Ledger Handle → Prop} (sslWrite : Nat → Int) (turns i left : Nat) :
    Meets SameRequest (fun l s => At d [.ssl, .socket n, .ctx] spent l ∧ P s)
      (writeLoop ⟨d, .ssl⟩ ⟨d, .socket n⟩ sslWrite turns i left)
      (fun _ l s => At d [.ssl, .socket n, .ctx] spent l ∧ P s)
      (fun _ l s => At d [.ssl, .socket n, .ctx] spent l ∧ P s) nev := by
  induction turns generalizing i left with
  | zero => exact Meets.ret fun l s h => h
  | succ turns ih =>
    rw [writeLoop]
    split
    · exact Meets.ret fun l s h => h
    · refine Meets.bind meets_useConnection fun _ => ?_
      split
      · exact Meets.throw fun l s h => h
      · exact ih _ _

/-- So does the read loop. -/
theorem meets_readLoop {exc : Bytes → Ledger Handle → σ → Prop} {nev : Ledger Handle → Prop}
    (reads : List Bytes) (resp : Bytes) :
    Meets SameRequest (fun l s => At d [.ssl, .socket n, .ctx] spent l ∧ P s)
      (readLoop ⟨d, .ssl⟩ ⟨d, .socket n⟩ reads resp)
      (fun _ l s => At d [.ssl, .socket n, .ctx] spent l ∧ P s) exc nev := by
  induction reads generalizing resp with
  | nil =>
    rw [readLoop]
    refine Meets.bind meets_useConnection fun _ => ?_
    exact Meets.ret fun l s h => h
  | cons buf rest ih =>
    rw [readLoop]
    refine Meets.bind meets_useConnection fun _ => ?_
    split
    · exact Meets.ret fun l s h => h
    · exact ih _

end

/-- The variables hold exactly the handles that are held. -/
def Owned (l : Ledger Handle) (s : HttpLocals) : Prop :=
  (s = ⟨none, none, none⟩ ∧ HeldIs [] l) ∨
  (∃ d, s = ⟨some ⟨d, .ctx⟩, none, none⟩ ∧ At d [.ctx] (fun _ => True) l) ∨
  (∃ d n, s = ⟨some ⟨d, .ctx⟩, none, some ⟨d, .socket n⟩⟩ ∧
    At d [.socket n, .ctx] (fun _ => True) l) ∨
  ∃ d n, s = ⟨some ⟨d, .ctx⟩, some ⟨d, .ssl⟩, some ⟨d, .socket n⟩⟩ ∧
    At d [.ssl, .socket n, .ctx] (fun _ => True) l

/-- The request has no handle left, and its variables say so. -/
def Closed (d : Nat) (l : Ledger Handle) (s : HttpLocals) : Prop :=
  At d [] (fun _ => True) l ∧ s = ⟨none, none, none⟩

/-- TLS and the transfer: what is thrown leaves the variables right, and at the end everything is
released. -/
theorem meets_transferOver {d n : Nat} {nev : Ledger Handle → Prop} (calls : CallOutcomes)
    (host reqStr : Bytes) :
    Meets SameRequest
      (fun l s => At d [.socket n, .ctx] (· ≠ .ssl) l ∧ s = ⟨some ⟨d, .ctx⟩, none, none⟩)
      (transferOver calls d host reqStr ⟨d, .socket n⟩) (fun _ => Closed d) (fun _ => Owned) nev := by
  -- The variables while the connection is being made, and once it is there.
  let made : HttpLocals → Prop := (· = ⟨some ⟨d, .ctx⟩, none, some ⟨d, .socket n⟩⟩)
  let joined : HttpLocals → Prop := (· = ⟨some ⟨d, .ctx⟩, some ⟨d, .ssl⟩, some ⟨d, .socket n⟩⟩)
  have howned : ∀ (e : Bytes) (l : Ledger Handle) (s : HttpLocals),
      At d [.ssl, .socket n, .ctx] (· ≠ .ssl) l ∧ joined s → Owned l s :=
    fun _ l s ⟨hat, hs⟩ =>
      Or.inr (Or.inr (Or.inr ⟨d, n, hs, hat.weaken fun _ _ => trivial⟩))
  unfold transferOver
  refine Meets.bind (M := fun _ l s => At d [.socket n, .ctx] (· ≠ .ssl) l ∧ made s) ?_ fun _ => ?_
  · exact Meets.assign fun l s ⟨hat, hs⟩ => ⟨hat, by rw [hs]⟩
  refine Meets.bind (meets_use (by simp)) fun _ => ?_
  split
  · exact Meets.throw fun l s ⟨hat, hs⟩ =>
      Or.inr (Or.inr (Or.inl ⟨d, n, hs, hat.weaken fun _ _ => trivial⟩))
  refine Meets.bind (meets_acquire (by simp) (by simp)) fun _ => ?_
  refine Meets.bind
    (M := fun _ l s => At d [.ssl, .socket n, .ctx] (· ≠ .ssl) l ∧ joined s) ?_ fun _ => ?_
  · exact Meets.assign fun l s ⟨hat, hs⟩ => ⟨hat, by rw [hs]⟩
  refine Meets.bind meets_useConnection fun _ => ?_
  refine Meets.bind (meets_use (by simp)) fun _ => ?_
  refine Meets.bind meets_useConnection fun _ => ?_
  split
  · exact Meets.throw (howned (ConnectFailure.sslConnect.what host))
  refine Meets.bind ((meets_writeLoop calls.sslWrite _ _ _).weaken (fun _ _ h => h)
    (fun _ _ _ h => h) howned (fun _ h => h)) fun _ => ?_
  refine Meets.bind (meets_readLoop calls.sslRead []) fun resp => ?_
  refine Meets.bind meets_useConnection fun _ => ?_
  refine Meets.bind (meets_release (by simp)) fun _ => ?_
  refine Meets.bind (meets_release (by simp)) fun _ => ?_
  refine Meets.bind (meets_release (by simp)) fun _ => ?_
  refine Meets.bind (M := fun _ => Closed d) ?_ fun _ => Meets.ret fun l s h => h
  refine Meets.assign fun l s ⟨hat, _⟩ => ⟨?_, rfl⟩
  have hnone : ((([.ssl, .socket n, .ctx] : List HandleKind).erase .ssl).erase
      (.socket n)).erase .ctx = [] := by simp
  rw [hnone] at hat
  exact hat.weaken fun _ _ => trivial

/-- From the connection to the last byte of the response. -/
theorem meets_transfer {d : Nat} {nev : Ledger Handle → Prop} (calls : CallOutcomes)
    (host reqStr : Bytes) :
    Meets SameRequest
      (fun l s => At d [.ctx] (fun _ => False) l ∧ s = ⟨some ⟨d, .ctx⟩, none, none⟩)
      (transfer calls d host reqStr) (fun _ => Closed d) (fun _ => Owned) nev := by
  unfold transfer
  refine Meets.bind ((meets_tcpConnect host calls.getaddrinfo).weaken (fun _ _ h => h)
    (fun _ _ _ h => h)
    (fun _ l s ⟨hat, hs⟩ => Or.inr (Or.inl ⟨d, hs, hat.weaken fun _ _ => trivial⟩))
    (fun _ h => h)) fun fd => ?_
  intro l s ⟨⟨n, hfd, hat⟩, hs⟩
  rw [hfd]
  exact meets_transferOver calls host reqStr l s ⟨hat, hs⟩

section
variable {d n : Nat} {spent : HandleKind → Prop}
  {exc : Bytes → Ledger Handle → HttpLocals → Prop} {nev : Ledger Handle → Prop}

/-- The context is released last. -/
theorem meets_releaseCtx :
    Meets SameRequest (fun l _ => At d [.ctx] spent l ∧ True) (Prog.emit (.release ⟨d, .ctx⟩))
      (fun _ l _ => HeldIs [] l) exc nev :=
  (meets_release (by simp)).weaken (fun _ _ h => h) (fun _ l s h => by simpa using h.1.1)
    (fun _ _ _ h => h) (fun _ h => h)

/-- The socket is closed before the context is released. -/
theorem meets_releaseSocket :
    Meets SameRequest (fun l _ => At d [.socket n, .ctx] spent l ∧ True)
      (do Prog.emit (.release ⟨d, .socket n⟩); Prog.emit (.release ⟨d, .ctx⟩))
      (fun _ l _ => HeldIs [] l) exc nev := by
  refine Meets.bind (meets_release (by simp)) fun _ => ?_
  rw [List.erase_cons_head]
  exact meets_releaseCtx

/-- The handler releases whatever the variables hold. -/
theorem meets_releaseLocals :
    Meets SameRequest Owned releaseLocals (fun _ l _ => HeldIs [] l) exc nev := by
  intro l s howned
  rcases howned with ⟨rfl, hheld⟩ | ⟨d, rfl, hat⟩ | ⟨d, n, rfl, hat⟩ | ⟨d, n, rfl, hat⟩
  · exact ⟨l, rfl, hheld⟩
  · exact meets_releaseCtx l _ ⟨hat, trivial⟩
  · exact meets_releaseSocket l _ ⟨hat, trivial⟩
  · have hssl : Meets SameRequest
        (fun l _ => At d [.ssl, .socket n, .ctx] (fun _ => True) l ∧ True)
        (do
          Prog.emit (.use ⟨d, .ssl⟩); Prog.emit (.use ⟨d, .socket n⟩)
          Prog.emit (.release ⟨d, .ssl⟩)
          Prog.emit (.release ⟨d, .socket n⟩); Prog.emit (.release ⟨d, .ctx⟩))
        (fun _ l _ => HeldIs [] l) exc nev := by
      refine Meets.bind (meets_use (by simp)) fun _ => ?_
      refine Meets.bind (meets_use (by simp)) fun _ => ?_
      refine Meets.bind (meets_release (by simp)) fun _ => ?_
      rw [List.erase_cons_head]
      exact meets_releaseSocket
    exact hssl l _ ⟨hat, trivial⟩

end

/-! ### The chain -/

/-- Nothing of this request or a later one has been acquired yet. -/
def Before (d : Nat) (l : Ledger Handle) : Prop := At d [] (fun _ => False) l

/-- A request that is started with nothing held ends with nothing held, however it ends. -/
theorem withContext_runs {d : Nat} {body : Prog Handle HttpLocals Bytes HttpResponse}
    (calls : CallOutcomes) (host : Bytes)
    (hbody : Meets SameRequest
      (fun l s => At d [.ctx] (fun _ => False) l ∧ s = ⟨some ⟨d, .ctx⟩, none, none⟩) body
      (fun _ l _ => HeldIs [] l) (fun _ => Owned) (HeldIs [])) {l : Ledger Handle}
    (hl : Before d l) :
    ∃ l', Ledger.Runs SameRequest l (withContext calls d host body).1 l' ∧ HeldIs [] l' := by
  refine Meets.run ?_ hl
  split
  · exact Meets.throw fun l s h => h.1.1
  · refine Meets.bind (meets_acquire (by simp) id) fun _ => ?_
    refine Meets.bind (M := fun _ l s =>
      At d [.ctx] (fun _ => False) l ∧ s = ⟨some ⟨d, .ctx⟩, none, none⟩) ?_ fun _ => ?_
    · exact Meets.assign fun l s ⟨hat, hs⟩ => ⟨hat, by rw [hs]⟩
    · refine Meets.catching hbody fun e => ?_
      refine Meets.bind meets_releaseLocals fun _ => ?_
      exact Meets.throw fun l s h => h

/-- Every chain that is started with nothing held runs legally and ends with nothing held. -/
theorem httpsRequestCalls_runs (trim : Bytes → Bytes) (network : Network)
    (method extraHeaders body : Bytes) (n : Nat) {d : Nat} {history : List Exchange}
    {via : Option Bytes} {host path : Bytes} {l : Ledger Handle} (hl : Before d l) :
    ∃ l', Ledger.Runs SameRequest l
      (httpsRequestCalls trim network method extraHeaders body n d history via host path).1 l' ∧
      HeldIs [] l' := by
  induction n generalizing d history via host path l with
  | zero => exact ⟨l, rfl, hl.1⟩
  | succ n ih =>
    rw [httpsRequestCalls]
    refine withContext_runs _ host ?_ hl
    refine Meets.bind (meets_transfer _ host _) fun resp => ?_
    -- From here on nothing of this request is held, and its variables are empty.
    have hclosed : ∀ l s, Closed d l s → HeldIs [] l := fun l s h => h.1.1
    have howned : ∀ l s, Closed d l s → Owned l s := fun l s h => Or.inl ⟨h.2, h.1.1⟩
    split
    · exact Meets.never hclosed
    · exact Meets.throw howned
    · split
      · exact Meets.throw howned
      · exact Meets.ret hclosed
      · refine Meets.call fun l s hs => ?_
        have hbefore : Before (d + 1) l := by
          refine ⟨hs.1.1, fun g hg => Or.inl ?_⟩
          rcases hs.1.2 g hg with hlt | ⟨heq, -⟩
          · omega
          · omega
        obtain ⟨l', hruns, hheld⟩ := ih hbefore
        refine ⟨l', hruns, ?_⟩
        match (httpsRequestCalls trim network method extraHeaders body n (d + 1) _ _ _ _).2 with
        | some (.ok r) => exact hheld
        | some (.error e) => exact Or.inl ⟨hs.2, hheld⟩
        | none => exact hheld

/-- Whatever the network does, the chain of a call acquires, uses and releases its handles as it
should: each is released exactly once, none is used or released when it is not open, and handles
of two requests are never open together. -/
theorem httpsRequestCalls_wellManaged (trim : Bytes → Bytes) (network : Network)
    (method extraHeaders body : Bytes) (history : List Exchange) (host path : Bytes) :
    let trace :=
      (httpsRequestCalls trim network method extraHeaders body 9 0 history none host path).1
    WellManaged trace ∧
      ∀ front back g h, trace = front ++ back → Open front g → Open front h →
        g.request = h.request := by
  intro trace
  have hempty : Before 0 (Ledger.empty : Ledger Handle) :=
    ⟨⟨rfl, rfl⟩, fun g hg => by cases hg⟩
  obtain ⟨l, hruns, hheld⟩ :=
    httpsRequestCalls_runs trim network method extraHeaders body 9 hempty
  have hinside : ∀ l, SameRequest l → l.inside = [] := fun l h => h.1
  refine ⟨hruns.wellManaged hinside hheld.1, fun front back g h htrace hg hh => ?_⟩
  have hcut : Ledger.Runs SameRequest Ledger.empty (front ++ back) l := by
    rw [← htrace]
    exact hruns
  obtain ⟨m, hfront, -⟩ := hcut.split
  have hstart : SameRequest (Ledger.empty : Ledger Handle) := ⟨rfl, fun g hg => by cases hg⟩
  exact (hfront.invariant hstart).2 g ((hfront.mem_held hinside g).mpr hg) h
    ((hfront.mem_held hinside h).mpr hh)

/-! ### The model without handles -/

section
variable {σ : Type}

/-- A socket is left if there is an address that connects. -/
theorem tryAddresses_result (d : Nat) (addresses : List AddressOutcome) (i : Nat) (s : σ) :
    ∃ fd, (tryAddresses d i addresses s).2.2 = some (.ok fd) ∧
      fd.isSome = addresses.any fun p => p.socket && p.connect := by
  induction addresses generalizing i s with
  | nil => exact ⟨none, rfl, rfl⟩
  | cons p rest ih =>
    obtain ⟨fd, hfd, hany⟩ := ih (i + 1) s
    rw [List.any_cons, ← hany, tryAddresses]
    cases hsocket : p.socket with
    | false => exact ⟨fd, hfd, by simp⟩
    | true =>
      cases hconnect : p.connect with
      | false => exact ⟨fd, hfd, by simp⟩
      | true => exact ⟨some ⟨d, .socket i⟩, rfl, by simp⟩

/-- `tcp_connect` returns that socket or throws. -/
theorem tcpConnect_result (d : Nat) (host : Bytes) (s : σ) (addresses : List AddressOutcome) :
    ((addresses.any fun p => p.socket && p.connect) = true →
      ∃ fd, (tcpConnect d host (.ok addresses) s).2.2 = some (.ok fd)) ∧
    ((addresses.any fun p => p.socket && p.connect) = false →
      (tcpConnect d host (.ok addresses) s).2.2 =
        some (.error (ConnectFailure.connect.what host))) := by
  obtain ⟨fd, hfd, hany⟩ := tryAddresses_result d addresses 0 s
  have hrest : (tcpConnect d host (.ok addresses) s).2 =
      ((do
        Prog.emit (.release ⟨d, .addrinfo⟩)
        match fd with
        | none => Prog.throw (ConnectFailure.connect.what host)
        | some fd => return fd : Prog Handle σ Bytes Handle)
        (tryAddresses d 0 addresses s).2.1).2 :=
    Prog.bind_of_ok hfd
  rw [← hany, hrest]
  cases fd with
  | none => exact ⟨fun h => (by cases h), fun _ => rfl⟩
  | some fd => exact ⟨fun _ => ⟨fd, rfl⟩, fun h => (by cases h)⟩

/-- The write loop throws when a write fails. -/
theorem writeLoop_result (ssl fd : Handle) (sslWrite : Nat → Int) (turns i left : Nat) (s : σ) :
    (writeLoop ssl fd sslWrite turns i left s).2.2 =
      some (if writeFails sslWrite turns i left = true then .error (lit "SSL_write failed")
        else .ok ()) := by
  induction turns generalizing i left with
  | zero => rfl
  | succ turns ih =>
    rw [writeLoop, writeFails]
    split
    · rfl
    · split
      · rfl
      · exact ih _ _

/-- The read loop returns the pieces up to the first empty read. -/
theorem readLoop_result (ssl fd : Handle) (reads : List Bytes) (resp : Bytes) (s : σ) :
    (readLoop ssl fd reads resp s).2.2 =
      some (.ok (resp ++ (reads.takeWhile (· ≠ [])).flatten)) := by
  induction reads generalizing resp with
  | nil =>
    rw [List.takeWhile_nil, List.flatten_nil, List.append_nil]
    rfl
  | cons buf rest ih =>
    rw [readLoop, List.takeWhile_cons]
    by_cases hbuf : buf = []
    · subst hbuf
      simp only [ne_eq, not_true_eq_false, decide_false, Bool.false_eq_true, if_false,
        List.flatten_nil, List.append_nil]
      rfl
    · have hrest := ih (resp ++ buf)
      simp only [ne_eq, hbuf, not_false_eq_true, decide_true, if_true, List.flatten_cons]
      rw [← List.append_assoc]
      exact hrest

end

/-- How the outcome of a request ends the transfer. -/
def transferResult (host : Bytes) : Outcome → Except Bytes Bytes
  | .failed failure => .error (failure.what host)
  | .broken => .error (lit "SSL_write failed")
  | .reply resp => .ok resp

/-- Over a connected socket the outcome is that of the TLS calls, the writes and the reads. -/
theorem transferOver_result (calls : CallOutcomes) (d : Nat) (host reqStr : Bytes) (fd : Handle)
    (s : HttpLocals) :
    (transferOver calls d host reqStr fd s).2.2 = some (transferResult host
      (if !calls.sslNew then .failed .sslNew
      else if !calls.sslConnect then .failed .sslConnect
      else if writeFails calls.sslWrite reqStr.length 0 reqStr.length then .broken
      else .reply (calls.sslRead.takeWhile (· ≠ [])).flatten)) := by
  cases hnew : calls.sslNew with
  | false =>
    simp only [transferOver, hnew]
    rfl
  | true =>
    cases hconnect : calls.sslConnect with
    | false =>
      simp only [transferOver, hnew, hconnect]
      rfl
    | true =>
      -- The calls before the loops only change the locals.
      have hstart : (transferOver calls d host reqStr fd s).2 =
          ((do
            writeLoop ⟨d, .ssl⟩ fd calls.sslWrite reqStr.length 0 reqStr.length
            let resp ← readLoop ⟨d, .ssl⟩ fd calls.sslRead []
            useConnection ⟨d, .ssl⟩ fd
            Prog.emit (.release ⟨d, .ssl⟩)
            Prog.emit (.release fd)
            Prog.emit (.release ⟨d, .ctx⟩)
            Prog.assign fun _ => { ctx := none, ssl := none, fd := none }
            return resp : Prog Handle HttpLocals Bytes Bytes)
            ⟨s.ctx, some ⟨d, .ssl⟩, some fd⟩).2 := by
        simp only [transferOver, hnew, hconnect]
        rfl
      have hwrite := writeLoop_result ⟨d, .ssl⟩ fd calls.sslWrite reqStr.length 0 reqStr.length
        (⟨s.ctx, some ⟨d, .ssl⟩, some fd⟩ : HttpLocals)
      rw [hstart]
      cases hfails : writeFails calls.sslWrite reqStr.length 0 reqStr.length with
      | true =>
        rw [hfails] at hwrite
        exact Prog.bind_of_error hwrite
      | false =>
        rw [hfails] at hwrite
        rw [Prog.bind_of_ok hwrite, Prog.bind_of_ok (readLoop_result _ _ _ _ _)]
        rfl

/-- A transfer ends as the outcome of its calls says. -/
theorem transfer_result {calls : CallOutcomes} (hctx : calls.ctxNew = true) (d : Nat)
    (host reqStr : Bytes) (s : HttpLocals) :
    (transfer calls d host reqStr s).2.2 =
      some (transferResult host (outcomeOf calls reqStr)) := by
  unfold transfer outcomeOf
  rw [hctx]
  cases haddr : calls.getaddrinfo with
  | error text => rfl
  | ok addresses =>
    obtain ⟨hsome, hnone⟩ := tcpConnect_result d host s addresses
    cases hany : addresses.any fun p => p.socket && p.connect with
    | true =>
      obtain ⟨fd, hfd⟩ := hsome hany
      rw [Prog.bind_of_ok hfd, transferOver_result]
      simp [hany]
    | false =>
      rw [Prog.bind_of_error (hnone hany)]
      simp [hany, transferResult]

/-- Without exceptions of the regular expressions the redirect that is followed is the one of the
model without handles. -/
theorem followResponse_eq {calls : CallOutcomes} (hsearch : calls.searchThrows = none)
    (hmatch : calls.matchThrows = none) (trim : Bytes → Bytes) (host : Bytes) (r : HttpResponse) :
    followResponse trim calls host r = .ok ((locationOf trim r).bind fun loc =>
      (redirectTarget host loc).map fun target => (loc, target.1, target.2)) := by
  unfold followResponse
  split
  · rw [hsearch, hmatch]
    cases locationOf trim r with
    | none => rfl
    | some loc =>
      dsimp only
      split
      · contradiction
      · rfl
  · rename_i hstatus
    rw [locationOf, if_neg hstatus]
    rfl

/-- Releasing the local handles throws nothing. -/
theorem releaseLocals_result (s : HttpLocals) : (releaseLocals s).2.2 = some (.ok ()) := by
  obtain ⟨ctx, ssl, fd⟩ := s
  cases ctx <;> cases ssl <;> cases fd <;> rfl

/-- With a context a call ends as what it does under the handler. -/
theorem withContext_result {calls : CallOutcomes} (hctx : calls.ctxNew = true) (d : Nat)
    (host : Bytes) (body : Prog Handle HttpLocals Bytes HttpResponse) :
    (withContext calls d host body).2 = (body ⟨some ⟨d, .ctx⟩, none, none⟩).2.2 := by
  have hstart : (withContext calls d host body).2 =
      (Prog.catching body (fun e => do releaseLocals; Prog.throw e)
        ⟨some ⟨d, .ctx⟩, none, none⟩).2.2 := by
    simp only [withContext, hctx]
    rfl
  rw [hstart, Prog.catching_rethrow releaseLocals_result]

/-- The handles do not change how a call ends: without exceptions of the regular expressions it
ends as in the model that leaves them out. -/
theorem httpsRequestCalls_eq (trim : Bytes → Bytes) {network : Network}
    (hregex : ∀ history peer request, (network history peer request).searchThrows = none ∧
      (network history peer request).matchThrows = none)
    (method extraHeaders body : Bytes) (n d : Nat) (history : List Exchange) (via : Option Bytes)
    (host path : Bytes) :
    (httpsRequestCalls trim network method extraHeaders body n d history via host path).2 =
      (httpsRequestFrom trim (serverOf network) method extraHeaders body n history via host path).2 := by
  induction n generalizing d history via host path with
  | zero => rfl
  | succ n ih =>
    rw [httpsRequestCalls, httpsRequestFrom]
    set reqStr := requestText host method path extraHeaders body with hreq
    set calls := network history (cString host) reqStr with hcalls
    have houtcome : (exchange (serverOf network) history via host path reqStr).outcome =
        outcomeOf calls reqStr := rfl
    obtain ⟨hsearch, hmatch⟩ := hregex history (cString host) reqStr
    cases hctx : calls.ctxNew with
    | false =>
      -- This one is thrown before the `try` block.
      have hfailed : outcomeOf calls reqStr = .failed .sslCtxNew := by
        simp only [outcomeOf, hctx]
        rfl
      simp only [houtcome, hfailed, withContext, hctx]
      rfl
    | true =>
      have htransfer := transfer_result hctx d host reqStr ⟨some ⟨d, .ctx⟩, none, none⟩
      rw [withContext_result hctx]
      -- What the exchange amounts to decides whether the rest of the block is reached.
      cases hout : outcomeOf calls reqStr with
      | failed failure =>
        rw [hout] at htransfer
        simp only [houtcome, hout, Prog.bind_of_error htransfer]
        rfl
      | broken =>
        rw [hout] at htransfer
        simp only [houtcome, hout, Prog.bind_of_error htransfer]
        rfl
      | reply resp =>
        rw [hout] at htransfer
        simp only [houtcome, hout, Prog.bind_of_ok htransfer, afterOutcome]
        cases readHttpResponse trim resp with
        | none => rfl
        | some result =>
          cases result with
          | error what => rfl
          | ok r =>
            have hfollow := @followResponse_eq calls hsearch hmatch trim host r
            cases hloc : locationOf trim r with
            | none =>
              rw [hloc] at hfollow
              simp only [hfollow, hloc]
              rfl
            | some loc =>
              cases htarget : redirectTarget host loc with
              | none =>
                simp only [hloc, htarget, Option.bind_some, Option.map_none] at hfollow
                simp only [hfollow, hloc, htarget]
                rfl
              | some target =>
                simp only [hloc, htarget, Option.bind_some, Option.map_some] at hfollow
                simp only [hfollow, hloc, htarget]
                exact ih (d + 1) _ _ _ _

/-- A host with three addresses of which the last one connects, a request that is written a few
bytes at a time and a response that comes in two pieces. -/
def piecesNetwork : Network := fun _ _ _ =>
  { ctxNew := true
    getaddrinfo := .ok [⟨false, false⟩, ⟨true, false⟩, ⟨true, true⟩]
    sslNew := true
    sslConnect := true
    sslWrite := fun _ => 40
    sslRead := [lit "HTTP/1.1 200", lit " OK\r\n\r\nhi"]
    searchThrows := none
    matchThrows := none }

/-- Over a network with partial writes and reads both give the reply. -/
theorem httpsRequestCalls_eq_pieces :
    (httpsRequestCalls id piecesNetwork (lit "GET") [] [] 9 0 [] none (lit "h") (lit "/")).2 =
      (httpsRequestFrom id (serverOf piecesNetwork) (lit "GET") [] [] 9 [] none (lit "h")
        (lit "/")).2 ∧
    (httpsRequestFrom id (serverOf piecesNetwork) (lit "GET") [] [] 9 [] none (lit "h")
      (lit "/")).2 = some (.ok ⟨200, lit "HTTP/1.1 200 OK", lit "hi"⟩) :=
  ⟨httpsRequestCalls_eq id (fun _ _ _ => ⟨rfl, rfl⟩) _ _ _ _ _ _ _ _ _, by decide⟩

end EjsBoundary.Proofs
