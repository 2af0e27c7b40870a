import Mathlib.Data.List.Basic
import Mathlib.Data.List.MinMax

/-!
A server behind a network of datagrams. A request or a reply may be lost, repeated,
delayed and overtaken by others, and a request that comes once more is served once more.

A client is a program over sockets. The network may act between any two of its steps,
and a wait may end without an answer at any time. A new socket gets any port with which
nothing is on the way, be it one that was used before: this is what is assumed of ports.
-/
namespace Userworks.Datagrams

variable {σ Req Rep ε α β : Type}

/-- The server, and what is on the way with the port of the client. -/
structure Network (σ Req Rep : Type) where
  server : σ
  requests : List (Nat × Req) := []
  replies : List (Nat × Rep) := []

namespace Network

def send (n : Network σ Req Rep) (sock : Nat) (request : Req) : Network σ Req Rep :=
  { n with requests := (sock, request) :: n.requests }

/-- Nothing is on the way from the port or to it. -/
structure Free (n : Network σ Req Rep) (port : Nat) : Prop where
  requests : ∀ x ∈ n.requests, x.1 ≠ port
  replies : ∀ y ∈ n.replies, y.1 ≠ port

/-- A port above all that are on the way. -/
def freshPort (n : Network σ Req Rep) : Nat :=
  (n.requests.map Prod.fst ++ n.replies.map Prod.fst).foldr max 0 + 1

/-- The server takes a request. -/
def arrive (serve : σ → Req → σ × Option Rep) (n : Network σ Req Rep) (x : Nat × Req) :
    Network σ Req Rep :=
  { n with
    server := (serve n.server x.2).1
    replies := ((serve n.server x.2).2.map fun rep => (x.1, rep)).toList ++ n.replies }

inductive Step (serve : σ → Req → σ × Option Rep) : Network σ Req Rep → Network σ Req Rep → Prop
  | arrive {n : Network σ Req Rep} {x : Nat × Req} (h : x ∈ n.requests) :
      Step serve n (n.arrive serve x)
  | drift {n : Network σ Req Rep} {requests : List (Nat × Req)} {replies : List (Nat × Rep)}
      (hrequests : requests ⊆ n.requests) (hreplies : replies ⊆ n.replies) :
      Step serve n { n with requests, replies }

end Network

/-- A client. `fault` is the end of a program that does not return. -/
inductive Program (Req Rep ε α : Type) where
  | done (a : α)
  | fault (e : ε)
  | socket (next : Nat → Program Req Rep ε α)
  | send (sock : Nat) (request : Req) (next : Program Req Rep ε α)
  | wait (sock : Nat) (next : Option Rep → Program Req Rep ε α)

namespace Program

def bind : Program Req Rep ε α → (α → Program Req Rep ε β) → Program Req Rep ε β
  | .done a, f => f a
  | .fault e, _ => .fault e
  | .socket next, f => .socket fun sock => (next sock).bind f
  | .send sock request next, f => .send sock request (next.bind f)
  | .wait sock next, f => .wait sock fun reply => (next reply).bind f

instance : Monad (Program Req Rep ε) where
  pure := .done
  bind := Program.bind

end Program

/-- The runs of a program, with the state of the network before and after. -/
inductive Runs (serve : σ → Req → σ × Option Rep) :
    Program Req Rep ε α → Network σ Req Rep → Except ε α → Network σ Req Rep → Prop
  | network {p : Program Req Rep ε α} {n n' n'' : Network σ Req Rep} {r : Except ε α}
      (hstep : Network.Step serve n n') (hrest : Runs serve p n' r n'') : Runs serve p n r n''
  | done {a : α} {n : Network σ Req Rep} : Runs serve (.done a) n (.ok a) n
  | fault {e : ε} {n : Network σ Req Rep} : Runs serve (.fault e) n (.error e) n
  | socket {next : Nat → Program Req Rep ε α} {n n' : Network σ Req Rep} {r : Except ε α}
      {port : Nat} (hfree : n.Free port) (hrest : Runs serve (next port) n r n') :
      Runs serve (.socket next) n r n'
  | send {sock : Nat} {request : Req} {next : Program Req Rep ε α} {n n' : Network σ Req Rep}
      {r : Except ε α} (hrest : Runs serve next (n.send sock request) r n') :
      Runs serve (.send sock request next) n r n'
  | timeout {sock : Nat} {next : Option Rep → Program Req Rep ε α} {n n' : Network σ Req Rep}
      {r : Except ε α} (hrest : Runs serve (next none) n r n') :
      Runs serve (.wait sock next) n r n'
  | reply {sock : Nat} {next : Option Rep → Program Req Rep ε α} {n n' : Network σ Req Rep}
      {r : Except ε α} {rep : Rep} (hreply : (sock, rep) ∈ n.replies)
      (hrest : Runs serve (next (some rep)) n r n') : Runs serve (.wait sock next) n r n'

/-- A run by a script, in which every socket gets a new port. For each wait the script says
which of the requests on the way arrive first, and which of the replies then ends the wait,
or that it times out. -/
def play (serve : σ → Req → σ × Option Rep) :
    Program Req Rep ε α → List (List Nat × Option Nat) → Network σ Req Rep →
      Option (Except ε α × Network σ Req Rep)
  | .done a, _, n => some (.ok a, n)
  | .fault e, _, n => some (.error e, n)
  | .socket next, script, n => play serve (next n.freshPort) script n
  | .send sock request next, script, n => play serve next script (n.send sock request)
  | .wait _ _, [], _ => none
  | .wait sock next, (arrivals, answer) :: script, n =>
      let n := arrivals.foldl (fun n i => (n.requests[i]?).elim n (n.arrive serve)) n
      match answer with
      | none => play serve (next none) script n
      | some i =>
          match n.replies[i]? with
          | some (peer, rep) => if peer = sock then play serve (next (some rep)) script n else none
          | none => none

/-- What the network cannot make false. -/
def Stable (serve : σ → Req → σ × Option Rep) (A : Network σ Req Rep → Prop) : Prop :=
  ∀ n n', A n → Network.Step serve n n' → A n'

/-- Every run of a program from a state of `pre` returns, in a state of `post`. -/
def Triple (serve : σ → Req → σ × Option Rep) (pre : Network σ Req Rep → Prop)
    (p : Program Req Rep ε α) (post : α → Network σ Req Rep → Prop) : Prop :=
  ∀ n r n', pre n → Runs serve p n r n' → ∃ a, r = .ok a ∧ post a n'

section

variable {serve : σ → Req → σ × Option Rep} {pre pre' mid : Network σ Req Rep → Prop}
  {post post' : α → Network σ Req Rep → Prop}

theorem Triple.weaken {p : Program Req Rep ε α} (h : Triple serve pre p post)
    (hpre : ∀ n, pre' n → pre n) (hpost : ∀ a n, post a n → post' a n) :
    Triple serve pre' p post' := by
  intro n r n' hn hrun
  obtain ⟨a, hr, ha⟩ := h n r n' (hpre n hn) hrun
  exact ⟨a, hr, hpost a n' ha⟩

/-- A fact about the state before may be used in the proof. -/
theorem triple_of_fact {p : Program Req Rep ε α} {fact : Prop} (hfact : ∀ n, pre n → fact)
    (h : fact → Triple serve pre p post) : Triple serve pre p post :=
  fun n r n' hn hrun => h (hfact n hn) n r n' hn hrun

theorem triple_exists {ι : Type} {p : Program Req Rep ε α} {pre : ι → Network σ Req Rep → Prop}
    (h : ∀ i, Triple serve (pre i) p post) : Triple serve (fun n => ∃ i, pre i n) p post := by
  rintro n r n' ⟨i, hn⟩ hrun
  exact h i n r n' hn hrun

theorem triple_done {a : α} (hstable : Stable serve pre) (hpost : ∀ n, pre n → post a n) :
    Triple serve pre (.done a : Program Req Rep ε α) post := by
  intro n r n' hn hrun
  generalize hp : (.done a : Program Req Rep ε α) = p at hrun
  induction hrun with
  | network hstep _ ih => exact ih (hstable _ _ hn hstep) hp
  | done =>
      cases hp
      exact ⟨_, rfl, hpost _ hn⟩
  | fault | socket | send | timeout | reply => cases hp

theorem triple_socket {next : Nat → Program Req Rep ε α} (after : Nat → Network σ Req Rep → Prop)
    (hstable : Stable serve pre) (hopen : ∀ n port, pre n → n.Free port → after port n)
    (hnext : ∀ port, Triple serve (after port) (next port) post) :
    Triple serve pre (.socket next) post := by
  intro n r n' hn hrun
  generalize hp : (.socket next : Program Req Rep ε α) = p at hrun
  induction hrun with
  | network hstep _ ih => exact ih (hstable _ _ hn hstep) hp
  | socket hfree hrest _ =>
      cases hp
      exact hnext _ _ _ _ (hopen _ _ hn hfree) hrest
  | done | fault | send | timeout | reply => cases hp

theorem triple_send {sock : Nat} {request : Req} {next : Program Req Rep ε α}
    (hstable : Stable serve pre) (hsend : ∀ n, pre n → mid (n.send sock request))
    (hnext : Triple serve mid next post) : Triple serve pre (.send sock request next) post := by
  intro n r n' hn hrun
  generalize hp : (.send sock request next : Program Req Rep ε α) = p at hrun
  induction hrun with
  | network hstep _ ih => exact ih (hstable _ _ hn hstep) hp
  | send hrest _ =>
      cases hp
      exact hnext _ _ _ (hsend _ hn) hrest
  | done | fault | socket | timeout | reply => cases hp

theorem triple_wait {sock : Nat} {next : Option Rep → Program Req Rep ε α}
    (after : Rep → Network σ Req Rep → Prop) (hstable : Stable serve pre)
    (htimeout : Triple serve pre (next none) post)
    (hreply : ∀ n rep, pre n → (sock, rep) ∈ n.replies → after rep n)
    (hnext : ∀ rep, Triple serve (after rep) (next (some rep)) post) :
    Triple serve pre (.wait sock next) post := by
  intro n r n' hn hrun
  generalize hp : (.wait sock next : Program Req Rep ε α) = p at hrun
  induction hrun with
  | network hstep _ ih => exact ih (hstable _ _ hn hstep) hp
  | timeout hrest _ =>
      cases hp
      exact htimeout _ _ _ hn hrest
  | reply hmem hrest _ =>
      cases hp
      exact hnext _ _ _ _ (hreply _ _ hn hmem) hrest
  | done | fault | socket | send => cases hp

end

section Play

variable {serve : σ → Req → σ × Option Rep}

theorem Runs.of_arrivals {p : Program Req Rep ε α} {n n' : Network σ Req Rep} {r : Except ε α}
    (arrivals : List Nat)
    (h : Runs serve p
      (arrivals.foldl (fun n i => (n.requests[i]?).elim n (n.arrive serve)) n) r n') :
    Runs serve p n r n' := by
  induction arrivals generalizing n with
  | nil => exact h
  | cons i arrivals ih =>
      rw [List.foldl_cons] at h
      cases hi : n.requests[i]? with
      | none =>
          rw [hi] at h
          exact ih h
      | some x =>
          rw [hi] at h
          exact .network (.arrive (List.mem_of_getElem? hi)) (ih h)

theorem Network.free_freshPort (n : Network σ Req Rep) : n.Free n.freshPort := by
  have hlt : ∀ port ∈ n.requests.map Prod.fst ++ n.replies.map Prod.fst, port < n.freshPort :=
    fun port hport => Nat.lt_succ_of_le (List.le_max_of_le' 0 hport (Nat.le_refl port))
  constructor
  · exact fun x hx =>
      Nat.ne_of_lt (hlt _ (List.mem_append_left _ (List.mem_map_of_mem (f := Prod.fst) hx)))
  · exact fun y hy =>
      Nat.ne_of_lt (hlt _ (List.mem_append_right _ (List.mem_map_of_mem (f := Prod.fst) hy)))

theorem runs_of_play {p : Program Req Rep ε α} {script : List (List Nat × Option Nat)}
    {n n' : Network σ Req Rep} {r : Except ε α} (h : play serve p script n = some (r, n')) :
    Runs serve p n r n' := by
  induction p generalizing script n with
  | done a =>
      cases h
      exact .done
  | fault e =>
      cases h
      exact .fault
  | socket next ih => exact .socket n.free_freshPort (ih _ h)
  | send sock request next ih => exact .send (ih h)
  | wait sock next ih =>
      match script with
      | [] => cases h
      | (arrivals, none) :: script => exact .of_arrivals arrivals (.timeout (ih none h))
      | (arrivals, some i) :: script =>
          apply Runs.of_arrivals arrivals
          simp only [play] at h
          split at h
          · rename_i peer rep hi
            split at h
            · rename_i hpeer
              exact .reply (hpeer ▸ List.mem_of_getElem? hi) (ih (some rep) h)
            · cases h
          · cases h

end Play

section Bind

variable {serve : σ → Req → σ × Option Rep}

theorem behind_done {a : α} {f : α → Program Req Rep ε β} {q : Program Req Rep ε β}
    {n n' : Network σ Req Rep} {r : Except ε β} (hq : (Program.done a).bind f = q)
    (h : Runs serve q n r n') :
    ∃ a' mid, Runs serve (.done a : Program Req Rep ε α) n (.ok a') mid ∧
      Runs serve (f a') mid r n' := by
  subst hq
  exact ⟨a, n, .done, h⟩

/-- A run of a program with a second one behind it falls into a run of each. -/
theorem Runs.split {p : Program Req Rep ε α} {f : α → Program Req Rep ε β}
    {n n' : Network σ Req Rep} {r : Except ε β} (h : Runs serve (p.bind f) n r n') :
    (∃ a mid, Runs serve p n (.ok a) mid ∧ Runs serve (f a) mid r n') ∨
      ∃ e, Runs serve p n (.error e) n' ∧ r = .error e := by
  generalize hq : p.bind f = q at h
  induction h generalizing p with
  | network hstep _ ih =>
      obtain ⟨a, mid, hfirst, hsecond⟩ | ⟨e, hfirst, hr⟩ := ih hq
      · exact .inl ⟨a, mid, .network hstep hfirst, hsecond⟩
      · exact .inr ⟨e, .network hstep hfirst, hr⟩
  | done =>
      cases p with
      | done a => exact .inl (behind_done hq .done)
      | fault | socket | send | wait => cases hq
  | fault =>
      cases p with
      | done a => exact .inl (behind_done hq .fault)
      | fault =>
          cases hq
          exact .inr ⟨_, .fault, rfl⟩
      | socket | send | wait => cases hq
  | socket hfree hrest ih =>
      cases p with
      | done a => exact .inl (behind_done hq (.socket hfree hrest))
      | socket next =>
          cases hq
          obtain ⟨a, mid, hfirst, hsecond⟩ | ⟨e, hfirst, hr⟩ := ih rfl
          · exact .inl ⟨a, mid, .socket hfree hfirst, hsecond⟩
          · exact .inr ⟨e, .socket hfree hfirst, hr⟩
      | fault | send | wait => cases hq
  | send hrest ih =>
      cases p with
      | done a => exact .inl (behind_done hq (.send hrest))
      | send sock request next =>
          cases hq
          obtain ⟨a, mid, hfirst, hsecond⟩ | ⟨e, hfirst, hr⟩ := ih rfl
          · exact .inl ⟨a, mid, .send hfirst, hsecond⟩
          · exact .inr ⟨e, .send hfirst, hr⟩
      | fault | socket | wait => cases hq
  | timeout hrest ih =>
      cases p with
      | done a => exact .inl (behind_done hq (.timeout hrest))
      | wait sock next =>
          cases hq
          obtain ⟨a, mid, hfirst, hsecond⟩ | ⟨e, hfirst, hr⟩ := ih rfl
          · exact .inl ⟨a, mid, .timeout hfirst, hsecond⟩
          · exact .inr ⟨e, .timeout hfirst, hr⟩
      | fault | socket | send => cases hq
  | reply hreply hrest ih =>
      cases p with
      | done a => exact .inl (behind_done hq (.reply hreply hrest))
      | wait sock next =>
          cases hq
          obtain ⟨a, mid, hfirst, hsecond⟩ | ⟨e, hfirst, hr⟩ := ih rfl
          · exact .inl ⟨a, mid, .reply hreply hfirst, hsecond⟩
          · exact .inr ⟨e, .reply hreply hfirst, hr⟩
      | fault | socket | send => cases hq

theorem triple_bind {p : Program Req Rep ε α} {f : α → Program Req Rep ε β}
    {pre : Network σ Req Rep → Prop} {mid : α → Network σ Req Rep → Prop}
    {post : β → Network σ Req Rep → Prop} (hfirst : Triple serve pre p mid)
    (hnext : ∀ a, Triple serve (mid a) (f a) post) : Triple serve pre (p >>= f) post := by
  intro n r n' hn hrun
  obtain ⟨a, between, hp, hf⟩ | ⟨e, hp, _⟩ := Runs.split hrun
  · obtain ⟨a', ha, hmid⟩ := hfirst _ _ _ hn hp
    cases ha
    exact hnext _ _ _ _ hmid hf
  · obtain ⟨_, ha, _⟩ := hfirst _ _ _ hn hp
    cases ha

/-- The network may go on behind a program. -/
theorem Runs.extend {p : Program Req Rep ε α} {b : β} {n mid n' : Network σ Req Rep}
    {r : Except ε α} {r' : Except ε β} (h : Runs serve p n r mid)
    (h' : Runs serve (.done b : Program Req Rep ε β) mid r' n') :
    r' = .ok b ∧ Runs serve p n r n' := by
  generalize hq : (.done b : Program Req Rep ε β) = q at h'
  induction h' with
  | network hstep _ ih =>
      refine ih ?_ hq
      clear ih hq
      induction h with
      | network hfirst _ ih => exact .network hfirst (ih hstep)
      | done => exact .network hstep .done
      | fault => exact .network hstep .fault
      | socket hfree _ ih => exact .socket hfree (ih hstep)
      | send _ ih => exact .send (ih hstep)
      | timeout _ ih => exact .timeout (ih hstep)
      | reply hreply _ ih => exact .reply hreply (ih hstep)
  | done =>
      cases hq
      exact ⟨rfl, h⟩
  | fault | socket | send | timeout | reply => cases hq

/-- A value that is made of the result of a program. -/
theorem triple_map {p : Program Req Rep ε α} {f : α → β} {pre : Network σ Req Rep → Prop}
    {mid : α → Network σ Req Rep → Prop} {post : β → Network σ Req Rep → Prop}
    (h : Triple serve pre p mid) (hpost : ∀ a n, mid a n → post (f a) n) :
    Triple serve pre (p >>= fun a => pure (f a)) post := by
  intro n r n' hn hrun
  obtain ⟨a, between, hp, hf⟩ | ⟨e, hp, _⟩ := Runs.split hrun
  · obtain ⟨hr, hp⟩ := hp.extend hf
    obtain ⟨a', ha, hmid⟩ := h _ _ _ hn hp
    cases ha
    exact ⟨f a, hr, hpost a n' hmid⟩
  · obtain ⟨_, ha, _⟩ := h _ _ _ hn hp
    cases ha

end Bind

section Contract

variable {serve : σ → Req → σ × Option Rep}

/-- An invariant of the server, the requests that may be on the way, and what a reply says
about the server from then on. -/
structure Contract (serve : σ → Req → σ × Option Rep) (I : σ → Prop) (R : Nat × Req → Prop)
    (Q : Nat × Rep → σ → Prop) : Prop where
  keeps : ∀ s x, I s → R x → I (serve s x.2).1
  stays : ∀ s x y, I s → R x → Q y s → Q y (serve s x.2).1
  answers : ∀ s x rep, I s → R x → (serve s x.2).2 = some rep → Q (x.1, rep) (serve s x.2).1

structure Holds (I : σ → Prop) (R : Nat × Req → Prop) (Q : Nat × Rep → σ → Prop)
    (n : Network σ Req Rep) : Prop where
  server : I n.server
  requests : ∀ x ∈ n.requests, R x
  replies : ∀ y ∈ n.replies, Q y n.server

variable {I : σ → Prop} {R : Nat × Req → Prop} {Q : Nat × Rep → σ → Prop}

theorem Contract.step (hcontract : Contract serve I R Q) {n n' : Network σ Req Rep}
    (h : Holds I R Q n) (hstep : Network.Step serve n n') : Holds I R Q n' := by
  cases hstep with
  | @arrive x hx =>
      have hR := h.requests x hx
      refine ⟨hcontract.keeps _ _ h.server hR, h.requests, ?_⟩
      intro y hy
      obtain hnew | hold := List.mem_append.mp hy
      · obtain ⟨rep, hrep, rfl⟩ := Option.map_eq_some_iff.mp (Option.mem_toList.mp hnew)
        exact hcontract.answers _ _ _ h.server hR hrep
      · exact hcontract.stays _ _ _ h.server hR (h.replies y hold)
  | drift hrequests hreplies =>
      exact ⟨h.server, fun x hx => h.requests x (hrequests hx),
        fun y hy => h.replies y (hreplies hy)⟩

theorem Contract.stable (hcontract : Contract serve I R Q) : Stable serve (Holds I R Q) :=
  fun _ _ h hstep => hcontract.step h hstep

theorem Holds.send {n : Network σ Req Rep} (h : Holds I R Q n) {sock : Nat} {request : Req}
    (hR : R (sock, request)) : Holds I R Q (n.send sock request) := by
  refine ⟨h.server, ?_, h.replies⟩
  intro x hx
  obtain rfl | hx := List.mem_cons.mp hx
  · exact hR
  · exact h.requests x hx

/-- The requests on the way are as `R` says. -/
structure Idle (I : σ → Prop) (R : Req → Prop) (n : Network σ Req Rep) : Prop where
  server : I n.server
  requests : ∀ x ∈ n.requests, R x.2

/-- A client that uses a new socket for requests that are as `mine` says: `A` is what the
replies to them say about the server from then on. -/
structure Call (serve : σ → Req → σ × Option Rep) (I : σ → Prop) (R mine : Req → Prop)
    (A : Rep → σ → Prop) : Prop where
  keeps : ∀ s request, I s → R request → I (serve s request).1
  stays : ∀ s request rep, I s → R request → A rep s → A rep (serve s request).1
  answers : ∀ s request rep, I s → mine request → (serve s request).2 = some rep →
    A rep (serve s request).1

/-- While the call waits at its socket. -/
def Waiting (I : σ → Prop) (R mine : Req → Prop) (A : Rep → σ → Prop) (sock : Nat) :
    Network σ Req Rep → Prop :=
  Holds I (fun x => R x.2 ∧ (x.1 = sock → mine x.2)) (fun y s => y.1 = sock → A y.2 s)

variable {R mine : Req → Prop} {A : Rep → σ → Prop}

theorem Call.contract (hcall : Call serve I R mine A) (sock : Nat) :
    Contract serve I (fun x => R x.2 ∧ (x.1 = sock → mine x.2))
      (fun y s => y.1 = sock → A y.2 s) where
  keeps := fun s x hI hR => hcall.keeps s x.2 hI hR.1
  stays := fun s x y hI hR hQ hy => hcall.stays s x.2 y.2 hI hR.1 (hQ hy)
  answers := fun s x rep hI hR hrep hx => hcall.answers s x.2 rep hI (hR.2 hx) hrep

theorem Call.stable (hcall : Call serve I R mine A) (sock : Nat) :
    Stable serve (Waiting I R mine A sock) :=
  (hcall.contract sock).stable

theorem Idle.stable (hkeeps : ∀ s request, I s → R request → I (serve s request).1) :
    Stable serve (Idle I R) := by
  intro n n' h hstep
  cases hstep with
  | arrive hx => exact ⟨hkeeps _ _ h.server (h.requests _ hx), h.requests⟩
  | drift hrequests _ => exact ⟨h.server, fun x hx => h.requests x (hrequests hx)⟩

/-- Nothing is on the way to or from a new socket. -/
theorem Idle.waiting {n : Network σ Req Rep} (h : Idle I R n) {port : Nat} (hfree : n.Free port) :
    Waiting I R mine A port n := by
  refine ⟨h.server, ?_, ?_⟩
  · exact fun x hx => ⟨h.requests x hx, fun heq => absurd heq (hfree.requests x hx)⟩
  · exact fun y hy heq => absurd heq (hfree.replies y hy)

theorem Waiting.send {n : Network σ Req Rep} {sock : Nat} (h : Waiting I R mine A sock n)
    {request : Req} (hR : R request) (hmine : mine request) :
    Waiting I R mine A sock (n.send sock request) :=
  Holds.send h ⟨hR, fun _ => hmine⟩

theorem Waiting.idle {n : Network σ Req Rep} {sock : Nat} (h : Waiting I R mine A sock n) :
    Idle I R n :=
  ⟨Holds.server h, fun x hx => (Holds.requests h x hx).1⟩

/-- What a reply says stays true. -/
theorem Call.stable_answer (hcall : Call serve I R mine A) (sock : Nat) (rep : Rep) :
    Stable serve fun n => Waiting I R mine A sock n ∧ A rep n.server := by
  rintro n n' ⟨hwaiting, hA⟩ hstep
  refine ⟨hcall.stable sock _ _ hwaiting hstep, ?_⟩
  cases hstep with
  | arrive hx =>
      exact hcall.stays _ _ _ (Holds.server hwaiting) (Holds.requests hwaiting _ hx).1 hA
  | drift => exact hA

/-- A reply at the socket of the call answers a request of the call. -/
theorem Waiting.answer {n : Network σ Req Rep} {sock : Nat} (h : Waiting I R mine A sock n)
    {rep : Rep} (hrep : (sock, rep) ∈ n.replies) : A rep n.server :=
  Holds.replies h _ hrep rfl

end Contract

end Userworks.Datagrams
