import HttpEcho.Proofs.Listen.Address
import Mathlib

/-! What listening on every interface comes to.

A socket of the sixth version is tried first, and one of the fourth when that fails for whatever
reason. `Host.Hinders` says what can stand in the way of either: no socket is made, a call is
refused, or other sockets keep the port. A try goes through exactly when nothing does
(`listenOn_cases`), and leaves the host as it was when something does. So `bind_everyInterface` says
which of the two sockets there is, for every host, every port and every set of bound sockets. It is
not only the lack of the sixth version that leads to the fourth: where sockets are bound that no
client of the fourth version reaches, the port is still free for a socket that only such clients
do. -/
namespace HttpEcho.Listen

/-! ### Who reaches a socket -/

/-- Every interface of a version. -/
def everyInterface (v6 : Bool) (port : UInt16) : Endpoint := ⟨if v6 then .any6 else .any4, port⟩

/-- A socket that is bound to every interface. One of the sixth version is for both. -/
def bare (v6 : Bool) (port : UInt16) : Socket :=
  { endpoint := everyInterface v6 port, shares := true }

/-- A socket that listens on every interface. -/
def listener (v6 : Bool) (port : UInt16) : Socket := { bare v6 port with listening := true }

/-- Some client of the fourth version reaches a socket when it listens. -/
def Socket.Serves4 (s : Socket) : Prop := ∃ bits, s.reachedAt (.v4 bits) = true

variable {s t : Socket} {ip : Ip} {port p : UInt16} {v6 : Bool}

theorem reachedAt_listener (port : UInt16) : (listener v6 port).reachedAt ip = true ↔
    v6 = true ∨ ∃ bits, ip.plain = .v4 bits := by
  unfold Socket.reachedAt
  cases v6 with
  | true =>
    have hplain : (listener true port).endpoint.ip.plain = .v6 0 := by
      show Ip.any6.plain = _
      decide
    rw [hplain]
    cases ip.plain <;> simp [listener, bare]
  | false =>
    have hplain : (listener false port).endpoint.ip.plain = .v4 0 := rfl
    rw [hplain]
    cases ip.plain <;> simp

/-- A socket that clients of the fourth version reach has an address of theirs, or all of them. -/
theorem Socket.serves4_iff :
    s.Serves4 ↔ (∃ bits, s.endpoint.ip.plain = .v4 bits) ∨ s.reachedAt .any4 = true := by
  have hplain : Ip.any4.plain = .v4 0 := rfl
  unfold Serves4 reachedAt
  rw [hplain]
  cases s.endpoint.ip.plain with
  | v4 bits => simp [Ip.plain]
  | v6 bits => simp [Ip.plain]

/-- A socket on every interface is in conflict with what a client of one of its versions reaches. -/
theorem conflicts_bare : (bare v6 port).conflicts t = true ↔
    t.endpoint.port = port ∧ (v6 = true ∨ t.Serves4) := by
  have hreached : (bare v6 port).reachedAt = (listener v6 port).reachedAt := rfl
  unfold Socket.conflicts
  rw [Bool.and_eq_true, Bool.or_eq_true, decide_eq_true_eq, hreached, reachedAt_listener]
  refine and_congr eq_comm ?_
  cases v6 with
  | true => simp
  | false =>
    rw [Socket.serves4_iff]
    simp [bare, everyInterface]

/-- A call that only sets something up. -/
def Call.Sets : Call → Prop
  | .bind _ | .listen _ => False
  | _ => True

namespace Host
variable {h : Host}

/-! ### What can stand in the way -/

/-- Another socket keeps a port from one on every interface. One that shares its endpoint and does
not listen gives way, but not where a port is to be assigned. -/
def Keeps (h : Host) (v6 assigned : Bool) (port : UInt16) : Prop :=
  ∃ t ∈ h.bound, t.endpoint.port = port ∧ (v6 = true ∨ t.Serves4) ∧
    (assigned = true ∨ t.shares = false ∨ t.listening = true)

/-- What stands in the way of listening on every interface with a socket of a version. -/
inductive Hinders (h : Host) (v6 : Bool) (port : UInt16) : SystemError → Prop
  | unmade {e} : h.unmade v6 = some e → Hinders h v6 port e
  | refused {c e} : c ∈ Call.everyInterface (everyInterface v6 port) → h.refuses v6 c = some e →
      Hinders h v6 port e
  | kept : (∀ p ∈ h.tried port, h.Keeps v6 (port = 0) p) → Hinders h v6 port .addressInUse

/-- A host with one more socket. -/
def adding (h : Host) (s : Socket) : Host := { h with bound := s :: h.bound }

/-! ### One call after another -/

/-- What is done in two steps on a host. -/
theorem run_step {α β : Type} {x : StateM Host α} {f : α → StateM Host β} {a : α} {h' : Host}
    (hx : x.run h = (a, h')) : (x >>= f).run h = (f a).run h' := by
  rw [StateT.run_bind, hx]
  rfl

theorem run_ask (h : Host) (c : Call) (s : Socket) : (sockets.ask c s).run h =
    match h.ask c s with
    | .ok (h', s') => (.ok s', h')
    | .error e => (.error e, h) := rfl

theorem run_askAll_of_ok {c : Call} {rest : List Call} {h' : Host} {s' : Socket}
    (hask : h.ask c s = .ok (h', s')) :
    (sockets.askAll (c :: rest) s).run h = (sockets.askAll rest s').run h' := by
  have hrun : (sockets.ask c s).run h = (.ok s', h') := by
    rw [run_ask, hask]
  rw [Sockets.askAll, run_step hrun]

/-- A socket that is refused something is closed. -/
theorem run_askAll_of_error {c : Call} {rest : List Call} {e : SystemError}
    (hask : h.ask c s = .error e) :
    (sockets.askAll (c :: rest) s).run h = (.error e, h.release s) := by
  have hrun : (sockets.ask c s).run h = (.error e, h) := by
    rw [run_ask, hask]
  rw [Sockets.askAll, run_step hrun]
  rfl

theorem ask_of_refused {c : Call} {e : SystemError}
    (hrefused : h.refuses s.endpoint.ip.isV6 c = some e) : h.ask c s = .error e := by
  unfold ask
  rw [hrefused]

/-- Calls that only set something up leave the host as it is. -/
theorem ask_of_sets {c : Call} (hc : c.Sets) (hnone : h.refuses s.endpoint.ip.isV6 c = none) :
    h.ask c s = .ok (h, c.setting s) := by
  unfold ask
  rw [hnone]
  cases c with
  | bind e => cases hc
  | listen n => cases hc
  | _ => rfl

theorem release_unbound (hs : s.endpoint.port = 0) : h.release s = h :=
  if_pos hs

/-- Setting up goes through if nothing is refused. -/
theorem run_askAll_sets {calls : List Call} (hcalls : ∀ c ∈ calls, c.Sets) (rest : List Call)
    (hport : s.endpoint.port = 0) :
    ((∀ c ∈ calls, h.refuses s.endpoint.ip.isV6 c = none) ∧
      (sockets.askAll (calls ++ rest) s).run h =
        (sockets.askAll rest (calls.foldl (fun s c => c.setting s) s)).run h) ∨
    ∃ c ∈ calls, ∃ e, h.refuses s.endpoint.ip.isV6 c = some e ∧
      (sockets.askAll (calls ++ rest) s).run h = (.error e, h) := by
  induction calls generalizing s with
  | nil => exact .inl ⟨nofun, rfl⟩
  | cons c calls ih =>
    rw [List.cons_append]
    cases hrefused : h.refuses s.endpoint.ip.isV6 c with
    | some e =>
      refine .inr ⟨c, List.mem_cons_self, e, hrefused, ?_⟩
      rw [run_askAll_of_error (ask_of_refused hrefused), release_unbound hport]
    | none =>
      have hendpoint : (c.setting s).endpoint = s.endpoint := by cases c <;> rfl
      have hask := ask_of_sets (hcalls c List.mem_cons_self) hrefused
      have hih := ih (s := c.setting s) (fun c hc => hcalls c (List.mem_cons_of_mem _ hc))
        (hendpoint ▸ hport)
      rw [run_askAll_of_ok hask]
      rw [hendpoint] at hih
      rcases hih with ⟨hnone, hrun⟩ | ⟨d, hd, e, he, hrun⟩
      · exact .inl ⟨List.forall_mem_cons.mpr ⟨hrefused, hnone⟩, hrun⟩
      · exact .inr ⟨d, List.mem_cons_of_mem _ hd, e, he, hrun⟩

/-! ### A try -/

theorem tried_ne_zero (hp : p ∈ h.tried port) : p ≠ 0 := by
  unfold tried at hp
  split at hp
  · exact of_decide_eq_true (List.mem_filter.mp hp).2
  · next hport =>
    rw [List.mem_singleton.mp hp]
    exact hport

theorem isFree_bare {assigned : Bool} :
    h.isFree assigned (bare v6 p) = true ↔ ¬ h.Keeps v6 assigned p := by
  have hway : ∀ t : Socket, (assigned || !t.givesWay (bare v6 p)) = true ↔
      assigned = true ∨ t.shares = false ∨ t.listening = true := by
    intro t
    simp [Socket.givesWay, bare]
  simp only [isFree, Keeps, Bool.not_eq_true', List.any_eq_false, Bool.and_eq_true, conflicts_bare,
    hway, and_assoc, not_exists, not_and]

/-- A socket of a version can be bound to every interface at a port that nothing keeps. -/
theorem place?_cases (h : Host) {s : Socket} (hs : ∀ q, { s with endpoint := everyInterface v6 q } =
    bare v6 q) (port : UInt16) :
    (∃ p ∈ h.tried port, ¬ h.Keeps v6 (port = 0) p ∧
      h.place? s (everyInterface v6 port) = some (bare v6 p)) ∨
    (∀ p ∈ h.tried port, h.Keeps v6 (port = 0) p) ∧
      h.place? s (everyInterface v6 port) = none := by
  have hplace : h.place? s (everyInterface v6 port) =
      ((h.tried port).map (bare v6)).find? (h.isFree (port = 0)) := by
    rw [← funext hs]
    rfl
  rw [hplace]
  cases hfound : ((h.tried port).map (bare v6)).find? (h.isFree (port = 0)) with
  | none =>
    rw [List.find?_eq_none, List.forall_mem_map] at hfound
    exact .inr ⟨fun p hp => not_not.mp (mt isFree_bare.mpr (hfound p hp)), rfl⟩
  | some found =>
    obtain ⟨p, hp, rfl⟩ := List.mem_map.mp (List.mem_of_find?_eq_some hfound)
    exact .inl ⟨p, hp, isFree_bare.mp (List.find?_some hfound), rfl⟩

/-- A socket that was bound can listen: what listens at its port would have kept it. -/
theorem ask_listen {assigned : Bool} (hfree : ¬ h.Keeps v6 assigned p)
    (hnone : h.refuses v6 (.listen backlog) = none) :
    (h.adding (bare v6 p)).ask (.listen backlog) (bare v6 p) =
      .ok (h.adding (listener v6 p), listener v6 p) := by
  have hversion : (bare v6 p).endpoint.ip.isV6 = v6 := by cases v6 <;> rfl
  have hheard : (h.adding (bare v6 p)).bound.any
      (fun t => (bare v6 p).conflicts t && t.listening) = false := by
    rw [List.any_eq_false]
    intro t ht hconflict
    rw [Bool.and_eq_true, conflicts_bare] at hconflict
    rcases List.mem_cons.mp ht with rfl | ht
    · cases hconflict.2
    · exact hfree ⟨t, ht, hconflict.1.1, hconflict.1.2, .inr (.inr hconflict.2)⟩
  have hnone : (h.adding (bare v6 p)).refuses v6 (.listen backlog) = none := hnone
  unfold ask
  rw [hversion, hnone]
  dsimp only
  rw [if_neg (by rw [hheard]; exact Bool.false_ne_true)]
  simp [adding, listener]

theorem release_bare (hp : p ≠ 0) : (h.adding (bare v6 p)).release (bare v6 p) = h := by
  rw [release, if_neg (show (bare v6 p).endpoint.port ≠ 0 from hp)]
  simp [adding]

theorem release_listener (hp : p ≠ 0) :
    (h.adding (listener v6 p)).release (listener v6 p) = h := by
  rw [release, if_neg (show (listener v6 p).endpoint.port ≠ 0 from hp)]
  simp [adding]

/-- What is asked of a socket on every interface once it is bound. -/
def lastCalls : List Call := [.listen backlog, .watch]

/-- A socket that was bound listens, or it is closed because something is refused. -/
theorem run_askAll_lastCalls (hp : p ∈ h.tried port) (hfree : ¬ h.Keeps v6 (port = 0) p) :
    ((∀ c ∈ lastCalls, h.refuses v6 c = none) ∧
      (sockets.askAll lastCalls (bare v6 p)).run (h.adding (bare v6 p)) =
        (.ok (listener v6 p), h.adding (listener v6 p))) ∨
    ∃ c ∈ lastCalls, ∃ e, h.refuses v6 c = some e ∧
      (sockets.askAll lastCalls (bare v6 p)).run (h.adding (bare v6 p)) = (.error e, h) := by
  have hversion : (bare v6 p).endpoint.ip.isV6 = v6 := by cases v6 <;> rfl
  have hport := tried_ne_zero hp
  unfold lastCalls
  cases hlisten : h.refuses v6 (.listen backlog) with
  | some e =>
    refine .inr ⟨_, List.mem_cons_self, e, hlisten, ?_⟩
    rw [run_askAll_of_error (ask_of_refused (hversion.symm ▸ hlisten)), release_bare hport]
  | none =>
    rw [run_askAll_of_ok (ask_listen hfree hlisten)]
    cases hwatch : h.refuses v6 .watch with
    | some e =>
      refine .inr ⟨.watch, by simp, e, hwatch, ?_⟩
      rw [run_askAll_of_error (ask_of_refused (hversion.symm ▸ hwatch)), release_listener hport]
    | none =>
      refine .inl ⟨by simp [hlisten, hwatch], ?_⟩
      have hask := ask_of_sets (c := .watch) (s := listener v6 p) (h := h.adding (listener v6 p))
        trivial (hversion.symm ▸ hwatch)
      rw [run_askAll_of_ok hask]
      rfl

/-- Binding asks for nothing that keeps the port, and every interface is the host's own. -/
theorem ask_bind (hnone : h.refuses v6 (.bind (everyInterface v6 port)) = none) :
    h.ask (.bind (everyInterface v6 port)) (bare v6 0) =
      match h.place? (bare v6 0) (everyInterface v6 port) with
      | none => .error .addressInUse
      | some s => .ok (h.adding s, s) := by
  have hversion : (bare v6 0).endpoint.ip.isV6 = v6 := by cases v6 <;> rfl
  have howns : h.owns (everyInterface v6 port).ip = true := by
    have hany : (everyInterface v6 port).ip.plain.isAny = true := by
      cases v6 with
      | false => rfl
      | true =>
        show Ip.any6.plain.isAny = true
        decide
    rw [owns, hany, Bool.true_or]
  unfold ask
  rw [hversion, hnone]
  dsimp only
  rw [howns]
  rfl

/-- How a socket on every interface is set up. -/
def setup (v6 : Bool) : List Call :=
  (if v6 then [.onlyV6 false] else []) ++ [.shareAddress, .nonblocking]

theorem everyInterface_eq (v6 : Bool) (port : UInt16) :
    Call.everyInterface (everyInterface v6 port) =
      setup v6 ++ .bind (everyInterface v6 port) :: lastCalls := by
  cases v6 <;> rfl

/-- A socket that is set up is bound where nothing keeps the port, and listens there. -/
theorem run_askAll_bind (h : Host) (v6 : Bool) (port : UInt16) :
    ((∀ c ∈ .bind (everyInterface v6 port) :: lastCalls, h.refuses v6 c = none) ∧
      ∃ p ∈ h.tried port, ¬ h.Keeps v6 (port = 0) p ∧
        (sockets.askAll (.bind (everyInterface v6 port) :: lastCalls) (bare v6 0)).run h =
          (.ok (listener v6 p), h.adding (listener v6 p))) ∨
    ∃ e, h.Hinders v6 port e ∧
      (sockets.askAll (.bind (everyInterface v6 port) :: lastCalls) (bare v6 0)).run h =
        (.error e, h) := by
  have hhinders : ∀ c ∈ .bind (everyInterface v6 port) :: lastCalls, ∀ e,
      h.refuses v6 c = some e → h.Hinders v6 port e := by
    intro c hc e he
    refine .refused ?_ he
    rw [everyInterface_eq]
    exact List.mem_append_right _ hc
  cases hbind : h.refuses v6 (.bind (everyInterface v6 port)) with
  | some e =>
    have hask : h.ask (.bind (everyInterface v6 port)) (bare v6 0) = .error e :=
      ask_of_refused (by cases v6 <;> exact hbind)
    refine .inr ⟨e, hhinders _ List.mem_cons_self e hbind, ?_⟩
    rw [run_askAll_of_error hask, release_unbound rfl]
  | none =>
    have hask := ask_bind hbind
    rcases h.place?_cases (s := bare v6 0) (fun q => rfl) port with
      ⟨p, hp, hfree, hplace⟩ | ⟨hkept, hplace⟩
    · rw [hplace] at hask
      rw [run_askAll_of_ok hask]
      rcases run_askAll_lastCalls hp hfree with ⟨hlast, hrun⟩ | ⟨c, hc, e, he, hrun⟩
      · exact .inl ⟨List.forall_mem_cons.mpr ⟨hbind, hlast⟩, p, hp, hfree, hrun⟩
      · exact .inr ⟨e, hhinders c (List.mem_cons_of_mem _ hc) e he, hrun⟩
    · rw [hplace] at hask
      refine .inr ⟨.addressInUse, .kept hkept, ?_⟩
      rw [run_askAll_of_error hask, release_unbound rfl]

theorem run_listenOn (h : Host) (v6 : Bool) (port : UInt16) :
    (sockets.listenOn (everyInterface v6 port)).run h =
      match h.make v6 with
      | .ok s => (sockets.askAll (Call.everyInterface (everyInterface v6 port)) s).run h
      | .error e => (.error e, h) := by
  have hversion : (everyInterface v6 port).ip.isV6 = v6 := by cases v6 <;> rfl
  have hrun : (sockets.make v6).run h = (h.make v6, h) := rfl
  rw [Sockets.listenOn, Sockets.listen, hversion, run_step hrun]
  cases h.make v6 <;> rfl

/-- **A try to listen on every interface goes through exactly when nothing hinders it**, and leaves
the host as it was when something does. -/
theorem listenOn_cases (h : Host) (v6 : Bool) (port : UInt16) :
    ((∀ e, ¬ h.Hinders v6 port e) ∧ ∃ p ∈ h.tried port, ¬ h.Keeps v6 (port = 0) p ∧
      (sockets.listenOn (everyInterface v6 port)).run h =
        (.ok (listener v6 p), h.adding (listener v6 p))) ∨
    ∃ e, h.Hinders v6 port e ∧
      (sockets.listenOn (everyInterface v6 port)).run h = (.error e, h) := by
  rw [run_listenOn, everyInterface_eq]
  cases hunmade : h.unmade v6 with
  | some e =>
    refine .inr ⟨e, .unmade hunmade, ?_⟩
    rw [make, hunmade]
  | none =>
    -- The socket that is made, and what it is when it is set up
    let made : Socket := { endpoint := everyInterface v6 0, onlyV6 := v6 && h.onlyV6 }
    have hmake : h.make v6 = .ok made := by
      rw [make, hunmade]
      rfl
    have hversion : made.endpoint.ip.isV6 = v6 := by cases v6 <;> rfl
    have hset : (setup v6).foldl (fun s c => c.setting s) made = bare v6 0 := by
      cases v6 <;> rfl
    have hsets : ∀ c ∈ setup v6, c.Sets := by
      cases v6 <;> simp [setup, Call.Sets]
    rw [hmake]
    rcases run_askAll_sets (h := h) (s := made) hsets (.bind (everyInterface v6 port) :: lastCalls)
      rfl with ⟨hsetup, hrun⟩ | ⟨c, hc, e, he, hrun⟩
    · rw [hset] at hrun
      rw [hversion] at hsetup
      rcases h.run_askAll_bind v6 port with ⟨hbind, p, hp, hfree, hbound⟩ | ⟨e, he, hbound⟩
      · refine .inl ⟨fun e he => ?_, p, hp, hfree, hrun.trans hbound⟩
        cases he with
        | unmade he => cases hunmade.symm.trans he
        | @refused c _ hc he =>
          rw [everyInterface_eq] at hc
          have hnone := List.forall_mem_append.mpr ⟨hsetup, hbind⟩ c hc
          cases hnone.symm.trans he
        | kept hkept => exact hfree (hkept p hp)
      · exact .inr ⟨e, he, hrun.trans hbound⟩
    · refine .inr ⟨e, .refused ?_ (hversion ▸ he), hrun⟩
      rw [everyInterface_eq]
      exact List.mem_append_left _ hc

/-! ### Every interface -/

theorem run_bindAll (h : Host) (port : UInt16) :
    (sockets.bindAll (fun _ => pure ()) port).run h =
      match (sockets.listenOn (everyInterface true port)).run h with
      | (.ok s, h') => (.ok s, h')
      | (.error _, h') =>
        match (sockets.listenOn (everyInterface false port)).run h' with
        | (.ok s, h'') => (.ok s, h'')
        | (.error e, h'') =>
          (.error (.bind (everyInterface false port).text (.system e)), h'') := by
  unfold Sockets.bindAll
  show (sockets.listenOn (everyInterface true port) >>= _).run h = _
  cases h6 : (sockets.listenOn (everyInterface true port)).run h with
  | mk tried6 h' =>
    rw [run_step h6]
    cases tried6 with
    | ok s => rfl
    | error e =>
      dsimp only
      rw [pure_bind]
      show (sockets.listenOn (everyInterface false port) >>= _).run h' = _
      cases h4 : (sockets.listenOn (everyInterface false port)).run h' with
      | mk tried4 h'' =>
        rw [run_step h4]
        cases tried4 <;> rfl

/-- What is said of listening does nothing to the host. -/
theorem bind_eq_run (h : Host) (raw : String) :
    h.bind raw = (sockets.bindQuietly (fun _ => pure ()) raw).run h := by
  unfold Host.bind Sockets.bind
  cases hrun : (sockets.bindQuietly (fun _ => pure ()) raw).run h with
  | mk bound h' =>
    rw [run_step hrun]
    cases bound <;> rfl

/-- What listening on every interface at a port can come to. -/
inductive Listens (h : Host) (port : UInt16) : Except ListenError Socket × Host → Prop
  | dualStack {p : UInt16} : (∀ e, ¬ h.Hinders true port e) → p ∈ h.tried port →
      Listens h port (.ok (listener true p), h.adding (listener true p))
  | onlyV4 {e : SystemError} {p : UInt16} : h.Hinders true port e →
      (∀ e, ¬ h.Hinders false port e) → p ∈ h.tried port →
      Listens h port (.ok (listener false p), h.adding (listener false p))
  | refused {e cause : SystemError} : h.Hinders true port e → h.Hinders false port cause →
      Listens h port (.error (.bind (everyInterface false port).text (.system cause)), h)

theorem listens_bind (h : Host) {raw : String}
    (hraw : Address.parse raw = .ok (.allInterfaces port)) : Listens h port (h.bind raw) := by
  have hrun : h.bind raw = (sockets.bindAll (fun _ => pure ()) port).run h := by
    rw [bind_eq_run]
    unfold Sockets.bindQuietly
    rw [hraw]
  rw [hrun, run_bindAll]
  rcases h.listenOn_cases true port with ⟨hnone, p, hp, -, h6⟩ | ⟨e, he, h6⟩
  · rw [h6]
    exact .dualStack hnone hp
  · rw [h6]
    dsimp only
    rcases h.listenOn_cases false port with ⟨hnone, p, hp, -, h4⟩ | ⟨cause, hcause, h4⟩
    · rw [h4]
      exact .onlyV4 he hnone hp
    · rw [h4]
      exact .refused he hcause

/-- Clients reach a new listener at every address that it is reached at, and nowhere else. -/
theorem reached_adding_iff (hadmits : h.admits = true) :
    (h.adding (listener v6 p)).reached ⟨ip, p⟩ = some (listener v6 p) ↔
      v6 = true ∨ ∃ bits, ip.plain = .v4 bits := by
  rw [← reachedAt_listener p]
  have hport : (listener v6 p).endpoint.port = p := rfl
  have hlistening : (listener v6 p).listening = true := rfl
  constructor
  · intro hreached
    rw [reached, adding, if_pos hadmits] at hreached
    have hfound := List.find?_some hreached
    exact (Bool.and_eq_true_iff.mp hfound).2
  · intro hreached
    simp [reached, adding, hadmits, hport, hlistening, hreached]

/-- **Which socket listens on every interface.** It is one of the sixth version that every client
reaches, exactly when nothing hinders that. It is one that clients of the fourth version reach, and
no others, exactly when something hinders the first, whatever it is, and nothing hinders this one.
Otherwise nothing changes, and the error is one that hinders the second. -/
theorem bind_everyInterface (h : Host) {raw : String}
    (hraw : Address.parse raw = .ok (.allInterfaces port)) :
    ((∃ s, (h.bind raw).1 = .ok s ∧ s.endpoint.ip = .any6) ↔ ∀ e, ¬ h.Hinders true port e) ∧
    ((∃ s, (h.bind raw).1 = .ok s ∧ s.endpoint.ip = .any4) ↔
      (∃ e, h.Hinders true port e) ∧ ∀ e, ¬ h.Hinders false port e) ∧
    ((∃ e, (h.bind raw).1 = .error e) ↔
      (∃ e, h.Hinders true port e) ∧ ∃ e, h.Hinders false port e) ∧
    (∀ e, (h.bind raw).1 = .error e → (h.bind raw).2 = h ∧
      ∃ cause, h.Hinders false port cause ∧
        e = .bind (Endpoint.text ⟨.any4, port⟩) (.system cause)) ∧
    ∀ s, (h.bind raw).1 = .ok s →
      (s.endpoint.ip = .any6 ∨ s.endpoint.ip = .any4) ∧ s.endpoint.port ∈ h.tried port ∧
      (h.bind raw).2 = h.adding s ∧
      (h.admits = true → ∀ ip, (h.bind raw).2.reached ⟨ip, s.endpoint.port⟩ = some s ↔
        s.endpoint.ip = .any6 ∨ ∃ bits, ip.plain = .v4 bits) := by
  have hlistens := h.listens_bind hraw
  generalize h.bind raw = outcome at hlistens
  cases hlistens with
  | @dualStack p hnone hp =>
    refine ⟨iff_of_true ⟨_, rfl, rfl⟩ hnone, iff_of_false ?_ ?_, iff_of_false nofun ?_, nofun, ?_⟩
    · rintro ⟨s, ⟨⟩, hip⟩
      cases hip
    · exact fun hsome => hsome.1.elim hnone
    · exact fun hsome => hsome.1.elim hnone
    · rintro s ⟨⟩
      refine ⟨.inl rfl, hp, rfl, fun hadmits ip => ?_⟩
      exact (reached_adding_iff hadmits).trans (or_congr_left (iff_of_true rfl rfl))
  | @onlyV4 e p he hnone hp =>
    refine ⟨iff_of_false ?_ ?_, iff_of_true ⟨_, rfl, rfl⟩ ⟨⟨e, he⟩, hnone⟩,
      iff_of_false nofun ?_, nofun, ?_⟩
    · rintro ⟨s, ⟨⟩, hip⟩
      cases hip
    · exact fun hall => hall e he
    · exact fun hsome => hsome.2.elim hnone
    · rintro s ⟨⟩
      refine ⟨.inr rfl, hp, rfl, fun hadmits ip => ?_⟩
      exact (reached_adding_iff hadmits).trans (or_congr_left (iff_of_false nofun nofun))
  | @refused e cause he hcause =>
    refine ⟨iff_of_false nofun fun hall => hall e he, iff_of_false nofun ?_,
      iff_of_true ⟨_, rfl⟩ ⟨⟨e, he⟩, cause, hcause⟩, ?_, nofun⟩
    · exact fun hsome => hsome.2 cause hcause
    · rintro error ⟨⟩
      exact ⟨rfl, cause, hcause, rfl⟩

/-- Beside a listener on the loopback address of the sixth version, a host that makes such sockets
listens with one of the fourth. -/
theorem bind_beside_loopback :
    let fresh : Host := { has := fun ip => ip = .v6 1 || ip.isLoopback4, ports := [40000] }
    let beside : Socket := { endpoint := ⟨.v6 1, 8080⟩, shares := true, listening := true }
    let h := fresh.adding beside
    fresh.bind "[::1]:8080" = (.ok beside, h) ∧ h.unmade true = none ∧
      Address.parse ":8080" = .ok (.allInterfaces 8080) ∧
      ∃ s, (h.bind ":8080").1 = .ok s ∧ s.endpoint.ip = .any4 := by
  intro fresh beside h
  have hbeside : fresh.bind "[::1]:8080" = (.ok beside, h) := by
    cbv
  have hraw : Address.parse ":8080" = .ok (.allInterfaces 8080) := by decide
  have htried : h.tried 8080 = [8080] := rfl
  have hkeeps : h.Keeps true false 8080 :=
    ⟨beside, List.mem_singleton_self _, rfl, .inl rfl, .inr (.inr rfl)⟩
  have hkept : h.Hinders true 8080 .addressInUse := by
    refine .kept fun p hp => ?_
    rw [htried] at hp
    cases List.mem_singleton.mp hp
    exact hkeeps
  have hfree : ∀ e, ¬ h.Hinders false 8080 e := by
    intro e he
    cases he with
    | unmade he => cases he
    | refused _ he => cases he
    | kept hall =>
      obtain ⟨t, ht, -, hserves, -⟩ := hall 8080 (htried ▸ List.mem_singleton_self _)
      rw [List.mem_singleton.mp ht] at hserves
      rcases hserves with hv6 | ⟨bits, hreached⟩
      · cases hv6
      · cases hreached
  exact ⟨hbeside, rfl, hraw, (h.bind_everyInterface hraw).2.1.mpr ⟨⟨_, hkept⟩, hfree⟩⟩

end Host
end HttpEcho.Listen
