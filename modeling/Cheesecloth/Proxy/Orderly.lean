import Cheesecloth.Proxy.Calls

/-!
# Who shuts down the sockets of a connection

`killp` gives up at its first exception, so a thread that finds its first socket closed
leaves the second one as it is.  Under `cleansUp` this does no harm: whoever closed the
first socket has shut down the second one, or is about to.

* `Underway`: the calls that a thread has left, and what the others have shut down.
* `Cutting s i j`: `j` is shut down, or the thread that closed `i` is about to do it.
  Once so, it stays so (`CallEffect.cutting`).
* `Orderly` is the invariant under the condition (`reachableVia_orderly`).  When the
  clean-up loop joins the threads of a connection, its first socket is shut down, and
  the second one is, or is about to be.
-/

namespace Cheesecloth.Proxy

open CodeLib

/-! ## Connections -/

theorem Wired.isConnection_lt {s : State} (hs : Wired s) {i j : Nat} (h : IsConnection s i j) :
    i < s.socks ∧ j < s.socks := by
  obtain ⟨t, ht, ⟨rfl, rfl⟩ | ⟨rfl, rfl⟩⟩ := h
  · exact ⟨hs.client_lt t ht, hs.server_lt t ht⟩
  · exact ⟨hs.server_lt t ht, hs.client_lt t ht⟩

/-- A socket is in one connection. -/
theorem Wired.partner {s : State} (hs : Wired s) {i j j' : Nat} (h : IsConnection s i j)
    (h' : IsConnection s i j') : j = j' := by
  obtain ⟨t, ht, ⟨rfl, rfl⟩ | ⟨rfl, rfl⟩⟩ := h
  · obtain ⟨u, hu, ⟨hclient, rfl⟩ | ⟨rfl, hserver⟩⟩ := h'
    · rw [hs.client_inj u hu t ht hclient]
    · exact hs.opposite t ht u hu hserver.symm
  · obtain ⟨u, hu, ⟨hclient, rfl⟩ | ⟨rfl, hserver⟩⟩ := h'
    · exact (hs.opposite u hu t ht hclient).symm
    · rw [hs.server_inj u hu t ht hserver]

theorem IsConnection.symm {s : State} {i j : Nat} (h : IsConnection s i j) :
    IsConnection s j i := by
  obtain ⟨t, ht, hij⟩ := h
  exact ⟨t, ht, hij.symm⟩

theorem Effect.isConnection {s s' : State} {a : Action} (h : Effect s a s') {i j : Nat}
    (hij : IsConnection s i j) : IsConnection s' i j := by
  obtain ⟨t, ht, hij⟩ := hij
  have hkept := h.kept ht
  exact ⟨t, hkept.lt, by rwa [hkept.client, hkept.server]⟩

theorem Wired.ne_of_isConnection {s : State} (hs : Wired s) {i j : Nat} (h : IsConnection s i j) :
    i ≠ j := by
  obtain ⟨t, ht, ⟨rfl, rfl⟩ | ⟨rfl, rfl⟩⟩ := h
  · exact hs.client_ne_server t ht
  · exact (hs.client_ne_server t ht).symm

theorem Entry.Started.isConnection {s : State} {e : Entry} (h : e.Started s) :
    IsConnection s e.k e.v :=
  ⟨e.t1, h.t1_lt, .inl ⟨h.t1_client, h.t1_server⟩⟩

/-! ## The invariant -/

/-- The sockets that the calls made so far have shut down. -/
structure Underway (s : State) (a b : Nat) (calls : List Call) : Prop where
  ne_nil : calls ≠ []
  suffix : calls <:+ killp a b
  first : .shutdown a ∈ calls ∨ (s.sock a).shut = true
  second : .shutdown b ∈ calls ∨ (s.sock b).shut = true

/-- `j` is shut down, or the thread that closed `i` is about to do it. -/
def Cutting (s : State) (i j : Nat) : Prop :=
  (s.sock j).shut = true ∨ ∃ θ, Killing s i j [.shutdown j, .close j] θ

/-- What holds under the condition. -/
structure Orderly (s : State) : Prop where
  shut : ∀ i, (s.sock i).closed = true → (s.sock i).shut = true
  underway : ∀ {θ a b calls}, Killing s a b calls θ → Underway s a b calls
  follows : ∀ i, (s.sock i).closed = true → ∃ j, IsConnection s i j ∧ Cutting s i j
  joined : ∀ e, s.main.AtJoin e → (s.sock e.k).shut = true ∧ Cutting s e.k e.v
  outside : CalledOutside s.main

theorem Killing.isConnection {s : State} (hs : proxy.Reachable s) {θ : Thread} {a b : Nat}
    {calls : List Call} (h : Killing s a b calls θ) : IsConnection s a b := by
  cases θ with
  | worker t => exact ⟨t, h.1, .inl h.2.2⟩
  | main =>
    obtain ⟨e, rest, hmain, rfl, rfl⟩ := h
    have hjoining := reachable_joining hs
    rw [hmain] at hjoining
    have hstarted := (reachable_recorded hs).workers e (Joined.mem hjoining)
    exact ⟨e.t1, hstarted.t1_lt, .inl ⟨hstarted.t1_client, hstarted.t1_server⟩⟩

theorem CallEffect.shut_stays {s s' : State} (h : CallEffect s s') {i : Nat} (hi : i < s.socks)
    (hshut : (s.sock i).shut = true) : (s'.sock i).shut = true := by
  cases h with
  | other hsock =>
    rcases hsock i with h | h
    · rw [h.2, hshut]
    · omega
  | shutdown _ hsock =>
    rw [hsock, Function.update_apply]
    split_ifs
    · rfl
    · exact hshut
  | refused _ _ hsock => rw [hsock, hshut]
  | close _ hsock =>
    rw [hsock, Function.update_apply]
    split_ifs with h
    · rw [Socket.close_shut, ← h, hshut]
    · exact hshut

/-- Once `j` is shut down, or about to be, it stays so. -/
theorem CallEffect.cutting {s s' : State} (h : CallEffect s s') (hs : Orderly s) {i j : Nat}
    (hj : j < s.socks) (hcut : Cutting s i j) : Cutting s' i j := by
  rcases hcut with hshut | ⟨θ, hθ⟩
  · exact .inl (h.shut_stays hj hshut)
  cases h with
  | other _ hkeeps => exact .inr ⟨θ, hkeeps hθ⟩
  | @shutdown φ a b i' calls hφ hsock hnext =>
    by_cases heq : θ = φ
    · subst heq
      obtain ⟨-, -, hcalls⟩ := hθ.unique hφ
      cases hcalls
      left
      rw [hsock, Function.update_self]
      rfl
    · exact .inr ⟨θ, (hnext.others heq).2 hθ⟩
  | @refused φ a b i' calls hφ hclosed hsock hnext =>
    by_cases heq : θ = φ
    · subst heq
      obtain ⟨-, -, hcalls⟩ := hθ.unique hφ
      cases hcalls
      left
      rw [hsock]
      exact hs.shut _ hclosed
    · exact .inr ⟨θ, (hnext.others heq).2 hθ⟩
  | @close φ a b i' calls hφ hsock hnext =>
    refine .inr ⟨θ, (hnext.others ?_).2 hθ⟩
    rintro rfl
    obtain ⟨-, -, hcalls⟩ := hθ.unique hφ
    cases hcalls

/-- What is left after a `close`. -/
theorem close_suffix {a b i : Nat} {calls : List Call} (h : .close i :: calls <:+ killp a b) :
    i = a ∧ calls = [.shutdown b, .close b] ∨ i = b ∧ calls = [] := by
  simp only [killp, List.suffix_cons_iff, List.suffix_nil] at h
  rcases h with h | h | h | h | h <;> cases h
  · exact .inl ⟨rfl, rfl⟩
  · exact .inr ⟨rfl, rfl⟩

/-- What is left after a `shutdown`. -/
theorem shutdown_suffix {a b i : Nat} {calls : List Call}
    (h : .shutdown i :: calls <:+ killp a b) :
    i = a ∨ i = b ∧ calls = [.close b] := by
  simp only [killp, List.suffix_cons_iff, List.suffix_nil] at h
  rcases h with h | h | h | h | h <;> cases h
  · exact .inl rfl
  · exact .inr ⟨rfl, rfl⟩

theorem Underway.mono {s s' : State} {a b : Nat} {calls : List Call} (h : Underway s a b calls)
    (ha : (s.sock a).shut = true → (s'.sock a).shut = true)
    (hb : (s.sock b).shut = true → (s'.sock b).shut = true) : Underway s' a b calls :=
  ⟨h.ne_nil, h.suffix, h.first.imp_right ha, h.second.imp_right hb⟩

theorem underway_killp (s : State) (a b : Nat) : Underway s a b (killp a b) :=
  ⟨by simp [killp], List.suffix_refl _, .inl (by simp [killp]), .inl (by simp [killp])⟩

/-- The calls after the first one, once what that call shuts down is shut down. -/
theorem Underway.tail {s s' : State} {a b : Nat} {c : Call} {calls : List Call}
    (h : Underway s a b (c :: calls)) (hne : calls ≠ [])
    (hc : ∀ i, c = .shutdown i → (s'.sock i).shut = true)
    (ha : (s.sock a).shut = true → (s'.sock a).shut = true)
    (hb : (s.sock b).shut = true → (s'.sock b).shut = true) : Underway s' a b calls := by
  have hpart : ∀ i, .shutdown i ∈ c :: calls ∨ (s.sock i).shut = true →
      ((s.sock i).shut = true → (s'.sock i).shut = true) →
      .shutdown i ∈ calls ∨ (s'.sock i).shut = true := by
    intro i hi hmono
    rcases hi with hi | hi
    · rcases List.mem_cons.1 hi with hi | hi
      · exact .inr (hc i hi.symm)
      · exact .inl hi
    · exact .inr (hmono hi)
  exact ⟨hne, (List.suffix_cons c calls).trans h.suffix, hpart a h.first ha, hpart b h.second hb⟩

/-- Who has made all calls of `killp` has shut down both sockets. -/
theorem Underway.last {s : State} {a b : Nat} {c : Call} (h : Underway s a b [c]) :
    c = .close b ∧ (s.sock a).shut = true ∧ (s.sock b).shut = true := by
  have hsuffix := h.suffix
  simp only [killp, List.suffix_cons_iff, List.suffix_nil] at hsuffix
  rcases hsuffix with hc | hc | hc | hc | hc <;> cases hc
  exact ⟨rfl, h.first.resolve_left (by simp), h.second.resolve_left (by simp)⟩

theorem joins_started {s : State} (hs : proxy.Reachable s) {e : Entry} (h : s.main.AtJoin e) :
    e.Started s := by
  have hjoining := reachable_joining hs
  unfold MainPc.AtJoin at h
  split at h
  case h_1 hmain =>
    rw [hmain] at hjoining
    exact (reachable_recorded hs).workers e (h ▸ Joined.mem hjoining)
  case h_2 hmain =>
    rw [hmain] at hjoining
    exact (reachable_recorded hs).workers e (h ▸ Joined.mem hjoining.1)
  case h_3 => exact h.elim

section Step

variable {s s' : State} (hreach : proxy.Reachable s) (hs : Orderly s) (h : CallEffect s s')

include hreach h in
theorem CallEffect.connection_stays {i j : Nat} (hij : IsConnection s i j) :
    ((s.sock i).shut = true → (s'.sock i).shut = true) ∧
    ((s.sock j).shut = true → (s'.sock j).shut = true) :=
  have hlt := (reachable_wired hreach).isConnection_lt hij
  ⟨h.shut_stays hlt.1, h.shut_stays hlt.2⟩

include hreach hs in
/-- A socket is shut down before it is closed. -/
theorem Orderly.shut_of_close {θ : Thread} {a b i : Nat} {calls : List Call}
    (hθ : Killing s a b (.close i :: calls) θ) : (s.sock i).shut = true := by
  have hunderway := hs.underway hθ
  have hne := (reachable_wired hreach).ne_of_isConnection (hθ.isConnection hreach)
  rcases close_suffix hunderway.suffix with ⟨rfl, rfl⟩ | ⟨rfl, rfl⟩
  · exact hunderway.first.resolve_left (by simp [hne])
  · exact hunderway.last.2.2

include hreach hs h in
theorem CallEffect.orderly_shut (i : Nat) (hclosed : (s'.sock i).closed = true) :
    (s'.sock i).shut = true := by
  cases h with
  | other hsock =>
    rcases hsock i with h | h
    · rw [h.2]
      exact hs.shut i (h.1 ▸ hclosed)
    · simp [h.1] at hclosed
  | shutdown _ hsock =>
    rw [hsock, Function.update_apply] at hclosed ⊢
    split_ifs at hclosed ⊢ with h
    · rfl
    · exact hs.shut i hclosed
  | refused _ _ hsock =>
    rw [hsock] at hclosed ⊢
    exact hs.shut i hclosed
  | close hθ hsock =>
    rw [hsock, Function.update_apply] at hclosed ⊢
    split_ifs at hclosed ⊢ with h
    · exact hs.shut_of_close hreach hθ
    · exact hs.shut i hclosed

include hreach hs in
theorem Proceeds.underway {θ φ : Thread} {a b a' b' : Nat} {c : Call} {calls calls' : List Call}
    (hnext : Proceeds s s' θ a b calls)
    (hθ : calls ≠ [] → Killing s a b (c :: calls) θ)
    (hc : ∀ i, c = .shutdown i → (s'.sock i).shut = true)
    (hstays : ∀ i j, IsConnection s i j → ((s.sock i).shut = true → (s'.sock i).shut = true) ∧
      ((s.sock j).shut = true → (s'.sock j).shut = true))
    (hφ : Killing s' a' b' calls' φ) : Underway s' a' b' calls' := by
  by_cases heq : φ = θ
  · subst heq
    obtain ⟨rfl, hne, rfl, rfl⟩ := hnext.own.1 hφ
    obtain ⟨ha, hb⟩ := hstays a b ((hθ hne).isConnection hreach)
    exact (hs.underway (hθ hne)).tail hne hc ha hb
  · have hφ := (hnext.others heq).1 hφ
    obtain ⟨ha, hb⟩ := hstays a' b' (hφ.isConnection hreach)
    exact (hs.underway hφ).mono ha hb

include hreach hs h in
theorem CallEffect.orderly_underway {θ : Thread} {a b : Nat} {calls : List Call}
    (hθ : Killing s' a b calls θ) : Underway s' a b calls := by
  have hstays := fun i j => h.connection_stays hreach (i := i) (j := j)
  cases h with
  | other _ _ hnew =>
    rcases hnew hθ with hθ | rfl
    · obtain ⟨ha, hb⟩ := hstays a b (hθ.isConnection hreach)
      exact (hs.underway hθ).mono ha hb
    · exact underway_killp ..
  | shutdown hφ hsock hnext =>
    refine hnext.underway hreach hs (fun _ => hφ) (fun i hi => ?_) hstays hθ
    cases hi
    rw [hsock, Function.update_self]
    rfl
  | @refused _ _ _ i _ _ _ _ hnext =>
    exact hnext.underway hreach hs (c := .close i) (fun h => absurd rfl h) (by simp) hstays hθ
  | close hφ _ hnext => exact hnext.underway hreach hs (fun _ => hφ) (by simp) hstays hθ

/-- Who closes a socket. -/
theorem CallEffect.closed_or (h : CallEffect s s') {i : Nat}
    (hclosed : (s'.sock i).closed = true) : (s.sock i).closed = true ∨
      ∃ θ a b calls, Killing s a b (.close i :: calls) θ ∧ Proceeds s s' θ a b calls := by
  cases h with
  | other hsock =>
    rcases hsock i with h | h
    · exact .inl (h.1 ▸ hclosed)
    · simp [h.1] at hclosed
  | shutdown _ hsock =>
    rw [hsock, Function.update_apply] at hclosed
    split_ifs at hclosed with h
    · exact .inl (h ▸ hclosed)
    · exact .inl hclosed
  | refused _ _ hsock => exact .inl (hsock ▸ hclosed)
  | close hθ hsock hnext =>
    rw [hsock, Function.update_apply] at hclosed
    split_ifs at hclosed with h
    · exact .inr ⟨_, _, _, _, h ▸ hθ, hnext⟩
    · exact .inl hclosed

include hreach hs h in
theorem CallEffect.orderly_follows (i : Nat) (hclosed : (s'.sock i).closed = true) :
    ∃ j, IsConnection s i j ∧ Cutting s' i j := by
  have hwired := reachable_wired hreach
  rcases h.closed_or hclosed with hclosed | ⟨θ, a, b, calls, hθ, hnext⟩
  · obtain ⟨j, hij, hcut⟩ := hs.follows i hclosed
    exact ⟨j, hij, h.cutting hs (hwired.isConnection_lt hij).2 hcut⟩
  · have hunderway := hs.underway hθ
    have hab := hθ.isConnection hreach
    rcases close_suffix hunderway.suffix with ⟨rfl, rfl⟩ | ⟨rfl, rfl⟩
    · -- the first socket is closed, and the second one is next
      exact ⟨b, hab, .inr ⟨θ, hnext.own.2 ⟨rfl, by simp, rfl, rfl⟩⟩⟩
    · exact ⟨a, hab.symm, .inl ((h.connection_stays hreach hab).1 hunderway.last.2.1)⟩

include hreach hs h in
theorem CallEffect.orderly_joined (e : Entry) (he : s'.main.AtJoin e) :
    (s'.sock e.k).shut = true ∧ Cutting s' e.k e.v := by
  have hwired := reachable_wired hreach
  -- What held of the connection at the end of `killp` still holds.
  have hstays : IsConnection s e.k e.v → (s.sock e.k).shut = true → Cutting s e.k e.v →
      (s'.sock e.k).shut = true ∧ Cutting s' e.k e.v := fun hkv hk hv =>
    ⟨(h.connection_stays hreach hkv).1 hk, h.cutting hs (hwired.isConnection_lt hkv).2 hv⟩
  have hold : s.main.AtJoin e → (s'.sock e.k).shut = true ∧ Cutting s' e.k e.v := fun he =>
    hstays (joins_started hreach he).isConnection (hs.joined e he).1 (hs.joined e he).2
  cases h with
  | other _ _ _ hjoins => exact hold (hjoins he)
  | shutdown hθ _ hnext =>
    rcases hnext.joins he with he | ⟨rfl, rfl, rfl, rfl⟩
    · exact hold he
    · cases (hs.underway hθ).last.1
  | @refused θ a b i calls hθ hclosed _ hnext =>
    rcases hnext.joins he with he | ⟨rfl, -, rfl, rfl⟩
    · exact hold he
    · have hunderway := hs.underway hθ
      have hkv := hθ.isConnection hreach
      rcases shutdown_suffix hunderway.suffix with rfl | ⟨rfl, rfl⟩
      · -- somebody else has closed the first socket
        obtain ⟨j, hkj, hcut⟩ := hs.follows _ hclosed
        obtain rfl := hwired.partner hkj hkv
        exact hstays hkv (hs.shut _ hclosed) hcut
      · have hne := hwired.ne_of_isConnection hkv
        exact hstays hkv (hunderway.first.resolve_left (by simp [hne])) (.inl (hs.shut _ hclosed))
  | close hθ _ hnext =>
    rcases hnext.joins he with he | ⟨rfl, rfl, rfl, rfl⟩
    · exact hold he
    · obtain ⟨-, hk, hv⟩ := (hs.underway hθ).last
      exact hstays (hθ.isConnection hreach) hk (.inl hv)

end Step

theorem Control.calledOutside {s : State} {a : Action} {ws : List Entry} {pc : MainPc}
    (h : Control s a ws pc) (hC : cleansUp s a = true) (hs : CalledOutside s.main) :
    CalledOutside pc := by
  have hcleanup : ∀ es : List Entry, CalledOutside (cleanupPc es) := by
    intro es line pc' h
    cases es <;> cases h
  cases h with
  | stay => exact hs
  | advance _ hpc =>
    rintro line pc' rfl
    exact absurd hpc id
  | leave => exact hcleanup _
  | joinT2 => exact hcleanup _
  | unwind hmain =>
    rcases raisePc_of_not_cleaningUp s.workers (hs _ _ hmain) with h | h | h
    · rw [h]
      exact hcleanup _
    · simp [h, CalledOutside]
    · simp [h, CalledOutside]
  | interrupt =>
    intro line pc' h
    cases h
    simpa [cleansUp] using hC
  | print hmain =>
    intro line pc' h
    cases h
    exact hs _ _ hmain
  | enter | start | record | kill | killed | joinT1 | crash => simp [CalledOutside]

theorem reachableVia_orderly {s : State}
    (hs : proxy.ReachableVia (fun s a => cleansUp s a) s) : Orderly s := by
  refine hs.invariant (I := Orderly) ?_ ?_
  · refine ⟨by simp [proxy, init], ?_, by simp [proxy, init], fun e he => ?_, ?_⟩
    · intro θ a b calls h
      cases θ with
      | worker t => exact absurd h.1 (Nat.not_lt_zero t)
      | main =>
        obtain ⟨e, rest, hmain, -⟩ := h
        cases hmain
    · exact absurd he id
    · intro line pc h
      cases h
  · intro s a s' hs hC hstep horderly
    have h := step_callEffect hs.reachable horderly.outside hC hstep
    refine ⟨h.orderly_shut hs.reachable horderly, h.orderly_underway hs.reachable horderly, ?_,
      h.orderly_joined hs.reachable horderly,
      (step_control hs.reachable hstep).calledOutside hC horderly.outside⟩
    intro i hi
    obtain ⟨j, hij, hcut⟩ := h.orderly_follows hs.reachable horderly i hi
    exact ⟨j, (step_effect hstep).isConnection hij, hcut⟩

end Cheesecloth.Proxy
