import HttpEcho.Http.Router
import Mathlib.Data.List.TakeWhile
import Mathlib.Data.Option.Basic

/-! Which requests come through to the echo.

There are two routes, one for the root and one for what is beyond it. They take exactly the paths
from the root (`Route.ofPath_eq_echo_iff_root`), and the targets that have one are those that are a
path, or a URI with a scheme: its path is the root's when it has none of its own. `dispatch_target`
says what follows for requests. A target that is `*` or an authority has no path from the root, and
no method makes up for it. -/
namespace HttpEcho.Http

/-! ### Routes -/

/-- A pattern takes a path. -/
def Pattern.Matches : Pattern → List UInt8 → Prop
  | .exact path, p => p = path
  | .beyond beginning, p => ∃ b rest, p = beginning ++ b :: rest

theorem Pattern.takes_iff {p : Pattern} {path : List UInt8} :
    p.takes path = true ↔ p.Matches path := by
  cases p with
  | exact own => exact decide_eq_true_iff
  | beyond beginning =>
    unfold takes Matches
    rw [Bool.and_eq_true, List.isPrefixOf_iff_prefix, decide_eq_true_iff]
    constructor
    · rintro ⟨⟨more, rfl⟩, hne⟩
      cases more with
      | nil => exact absurd (List.append_nil _) hne
      | cons b rest => exact ⟨b, rest, rfl⟩
    · rintro ⟨b, rest, rfl⟩
      exact ⟨List.prefix_append _ _, by simp⟩

/-- The routes take the paths that a pattern takes. -/
theorem Route.ofPath_eq_echo_iff {path : List UInt8} :
    Route.ofPath path = .echo ↔ ∃ p ∈ patterns, p.Matches path := by
  simp [ofPath, List.any_eq_true, Pattern.takes_iff]

/-- Those are the paths from the root. -/
theorem Route.ofPath_eq_echo_iff_root {path : List UInt8} :
    Route.ofPath path = .echo ↔ ∃ rest, path = 0x2F :: rest := by
  rw [Route.ofPath_eq_echo_iff]
  constructor
  · intro h
    obtain ⟨p, hp, hmatches⟩ := h
    simp only [patterns, List.mem_cons, List.not_mem_nil, or_false] at hp
    rcases hp with rfl | rfl
    · obtain ⟨b, rest, rfl⟩ := hmatches
      exact ⟨b :: rest, rfl⟩
    · exact ⟨[], hmatches⟩
  · intro h
    obtain ⟨rest, rfl⟩ := h
    cases rest with
    | nil => exact ⟨.exact root, by simp [patterns], rfl⟩
    | cons b rest => exact ⟨.beyond root, by simp [patterns], b, rest, rfl⟩

/-! ### Targets -/

/-- A target with a path: one that is a path, or a URI with a scheme. -/
def Target.HasPath : Target → Prop
  | .origin _ | .absolute .. => True
  | .authority _ | .asterisk => False

theorem PathAndQuery.path_of_split? {s : List UInt8} {p : PathAndQuery}
    (h : PathAndQuery.split? s = some p) : p.path = s.takeWhile isPathOctet := by
  unfold PathAndQuery.split? at h
  split at h
  · cases h
    rfl
  · cases h
    rfl
  · split at h
    · cases h
      rfl
    · cases h
      rfl
    · cases h
  · cases h

theorem PathAndQuery.path_of? {s : List UInt8} {p : PathAndQuery}
    (h : PathAndQuery.of? s = some p) : p.path = s.takeWhile isPathOctet := by
  simp only [PathAndQuery.of?, Option.bind_eq_bind, Option.bind_eq_some_iff] at h
  obtain ⟨q, hq, _, -, _, -, he⟩ := h
  cases he
  exact PathAndQuery.path_of_split? hq

/-- What follows an authority has a path from the root, or none. -/
theorem splitAuthority_path {s text rest : List UInt8} (h : splitAuthority s = some (text, rest)) :
    rest.takeWhile isPathOctet = [] ∨ ∃ more, rest.takeWhile isPathOctet = 0x2F :: more := by
  simp only [splitAuthority, Option.bind_eq_bind, Option.bind_eq_some_iff] at h
  obtain ⟨a, -, h⟩ := h
  split at h
  · cases h
    cases hrest : s.dropWhile (!endsAuthority ·) with
    | nil => exact Or.inl rfl
    | cons b more =>
      have hends : endsAuthority b = true := by
        have hhead := List.head?_dropWhile_not (!endsAuthority ·) s
        rw [hrest] at hhead
        simpa using hhead
      simp only [endsAuthority, Bool.or_eq_true, decide_eq_true_eq] at hends
      rcases hends with (rfl | rfl) | rfl
      · exact Or.inr ⟨_, List.takeWhile_cons_of_pos rfl⟩
      · exact Or.inl rfl
      · exact Or.inl rfl
  · cases h

/-- **The targets with a path are those with a path from the root.** -/
theorem Target.hasPath_iff {s : List UInt8} {t : Target} (h : Target.of? s = some t) :
    t.HasPath ↔ Route.ofPath t.path = .echo := by
  unfold Target.of? at h
  split at h
  · cases h
  split at h
  · cases h
  · -- `*`
    cases h
    exact iff_of_false id fun hfound => by cases hfound
  · -- A path: it begins with its first octet.
    obtain ⟨p, hp, rfl⟩ := Option.map_eq_some_iff.mp h
    refine iff_of_true trivial (Route.ofPath_eq_echo_iff_root.mpr ?_)
    exact ⟨_, (PathAndQuery.path_of? hp).trans (List.takeWhile_cons_of_pos rfl)⟩
  · split at h
    · cases h
    · -- An authority
      simp only [Option.bind_eq_bind, Option.bind_eq_some_iff] at h
      obtain ⟨⟨text, rest⟩, -, h⟩ := h
      split at h
      · cases h
        exact iff_of_false id fun hfound => by cases hfound
      · cases h
    · -- A URI with a scheme
      simp only [Option.bind_eq_bind, Option.bind_eq_some_iff] at h
      obtain ⟨⟨text, rest⟩, hsplit, h⟩ := h
      split at h
      · cases h
      · obtain ⟨p, hp, rfl⟩ := Option.map_eq_some_iff.mp h
        refine iff_of_true trivial (Route.ofPath_eq_echo_iff_root.mpr ?_)
        show ∃ more, (if p.path.isEmpty then [0x2F] else p.path) = 0x2F :: more
        rw [PathAndQuery.path_of? hp]
        rcases splitAuthority_path hsplit with hnone | ⟨more, hmore⟩
        · exact ⟨[], by rw [hnone]; rfl⟩
        · exact ⟨more, by rw [hmore]; rfl⟩

/-! ### Requests -/

theorem Request.target_of_ofOctets {method target : List UInt8}
    {fields : List (List UInt8 × List UInt8)} {body : Body} {r : Request}
    (h : Request.ofOctets method target fields body = .ok r) :
    Target.of? target = some r.target := by
  unfold Request.ofOctets at h
  split at h <;> cases h
  assumption

theorem Response.status_toReply (r : Response) (m : Method) : (r.toReply m).status = r.status := by
  unfold Response.toReply
  split <;> rfl

/-- **A request is echoed exactly when its target has a path**, whatever its method, its headers and
its body are: then a route takes it, and it is answered with status 200. A target that is `*` or an
authority is taken by no route, and answered with status 404. -/
theorem dispatch_target (e : Echo) {method target : List UInt8}
    {fields : List (List UInt8 × List UInt8)} {body : Body} {r : Request}
    (h : Request.ofOctets method target fields body = .ok r) :
    (r.target.HasPath ↔ ∃ p ∈ patterns, p.Matches r.target.path) ∧
    (r.target.HasPath ↔ r.target ≠ .asterisk ∧ ∀ text, r.target ≠ .authority text) ∧
    (r.target.HasPath → e.dispatch r = e.respond r.headers r.body ∧ (e.reply r).status = 200) ∧
    (¬ r.target.HasPath → e.dispatch r = ⟨404, none, []⟩ ∧ (e.reply r).status = 404) := by
  have hroute := Target.hasPath_iff (Request.target_of_ofOctets h)
  refine ⟨hroute.trans Route.ofPath_eq_echo_iff, ?_, fun hpath => ?_, fun hpath => ?_⟩
  · cases r.target <;> simp [Target.HasPath]
  · have hdispatch : e.dispatch r = e.respond r.headers r.body := by
      unfold Echo.dispatch Request.route
      rw [hroute.mp hpath]
    refine ⟨hdispatch, ?_⟩
    rw [Echo.reply, Response.status_toReply, hdispatch]
    rfl
  · have hnone : Route.ofPath r.target.path = .notFound := by
      cases hfound : Route.ofPath r.target.path with
      | echo => exact absurd (hroute.mpr hfound) hpath
      | notFound => rfl
    have hdispatch : e.dispatch r = ⟨404, none, []⟩ := by
      unfold Echo.dispatch Request.route
      rw [hnone]
    refine ⟨hdispatch, ?_⟩
    rw [Echo.reply, Response.status_toReply, hdispatch]

/-- `OPTIONS *` is a request, and not echoed. -/
theorem dispatch_options_asterisk :
    let e : Echo := ⟨.base64, 16⟩
    let r : Request := ⟨⟨['O', 'P', 'T', 'I', 'O', 'N', 'S'], by decide⟩, .asterisk, {}, .full [0x78]⟩
    Request.ofOctets [0x4F, 0x50, 0x54, 0x49, 0x4F, 0x4E, 0x53] [0x2A] [] (.full [0x78]) = .ok r ∧
      e.dispatch r = ⟨404, none, []⟩ ∧ (e.reply r).status = 404 := by
  intro e r
  have hrequest : Request.ofOctets [0x4F, 0x50, 0x54, 0x49, 0x4F, 0x4E, 0x53] [0x2A] []
      (.full [0x78]) = .ok r := rfl
  exact ⟨hrequest, (dispatch_target e hrequest).2.2.2 id⟩

end HttpEcho.Http
