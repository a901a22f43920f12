import PgRest.Conf.Parse

/-! The list of upstreams over whole sequences of calls of `pgrest_http_upstream_add`: definitions, each
for an upstream that has just been created, and references. -/
namespace PgRest.Conf

/-- A call of `pgrest_http_upstream_add`. -/
inductive Call where
  /-- with `PGREST_HTTP_UPSTREAM_CREATE`, where `*conf` has just been put at the end of the list -/
  | define (u : Url) (defaultPort : Nat)
  /-- with no flags, where `*conf` is NULL; `u` is what `pgrest_inet_parse_url` leaves -/
  | reference (u : Url) (defaultPort : Nat)

def Call.url : Call → Url
  | define u _ => u
  | reference u _ => u

/-- What a call returns, with `*conf` and the list afterwards. -/
structure Result where
  ok : Bool
  conf : Option Nat
  upstreams : Option (List Upstream)

/-- The call, unless it uses a list that is NULL. `upstream` is a variable of its own: `*conf` stays what
it has been. -/
def Call.run (s : Option (List Upstream)) : Call → Option Result
  | .define u defaultPort =>
    let conf := some (s.getD []).length
    let r := upstreamAdd true u defaultPort conf (s.getD [] ++ [{}])
    some ⟨r.1, conf, some r.2⟩
  | .reference u defaultPort =>
    if !u.ok then some ⟨false, none, s⟩
    else
      s.map fun upstreams =>
        let r := upstreamAdd false u defaultPort none upstreams
        ⟨r.1, none, some r.2⟩

/-- The calls with their results, as far as they return. -/
def history (s : Option (List Upstream)) : List Call → List (Call × Result)
  | [] => []
  | c :: calls => (c.run s).elim [] fun r => (c, r) :: history r.upstreams calls

/-- The hosts are of one length and `strncasecmp` finds no difference. -/
def SameHost (host host' : Bytes) : Prop := host.length = host'.length ∧ sameCase host host' = true

/-- `*conf` is an upstream of the list, with the host and a port that goes with the one asked for. -/
def Result.Found (r : Result) (u : Url) : Prop :=
  ∃ i v, r.conf = some i ∧ (r.upstreams.getD [])[i]? = some v ∧ SameHost v.host u.host ∧
    (v.port = 0 ∨ u.port = 0 ∨ v.port = u.port)

/-- No two upstreams that have been defined have one host. -/
def Distinct (upstreams : List Upstream) : Prop :=
  ∀ (i j : Nat) (v w : Upstream), upstreams[i]? = some v → upstreams[j]? = some w →
    v.create = true → w.create = true → SameHost v.host w.host → i = j

/-- The calls resolve to the one upstream that is registered. -/
structure Resolves (s : Option (List Upstream)) (calls : List Call) : Prop where
  found : ∀ e ∈ history s calls, e.2.ok = true → e.2.Found e.1.url
  same : ∀ e ∈ history s calls, ∀ e' ∈ history s calls, e.2.ok = true → e'.2.ok = true →
    SameHost e.1.url.host e'.1.url.host → e.1.url.port = e'.1.url.port → e.2.conf = e'.2.conf
  distinct : ∀ e ∈ history s calls, Distinct (e.2.upstreams.getD [])

/-- A definition; or a reference that is refused: its text has no address, there is no list yet, or it
has a port and its host is that of an upstream that has been defined. -/
def Declined (s : Option (List Upstream)) : Call → Prop
  | .define _ _ => True
  | .reference u _ =>
    u.ok = false ∨ s = none ∨ u.noPort = false ∧ ∃ v ∈ s.getD [], v.create = true ∧ SameHost v.host u.host

/-- Each call is, in the list that is there before it. -/
def AllDeclined (s : Option (List Upstream)) : List Call → Prop
  | [] => True
  | c :: calls => Declined s c ∧ ∀ r, c.run s = some r → AllDeclined r.upstreams calls

/-! ### The search -/

theorem sameHost_symm {s t : Bytes} (h : SameHost s t) : SameHost t s := by
  obtain ⟨hlen, hcase⟩ := h
  refine ⟨hlen.symm, ?_⟩
  unfold sameCase at hcase ⊢
  exact beq_iff_eq.mpr (beq_iff_eq.mp hcase).symm

theorem sameHost_trans {s t u : Bytes} (h : SameHost s t) (h' : SameHost t u) : SameHost s u := by
  have hst := h.2
  have htu := h'.2
  unfold sameCase at hst htu
  exact ⟨h.1.trans h'.1, beq_iff_eq.mpr ((beq_iff_eq.mp hst).trans (beq_iff_eq.mp htu))⟩

instance (s t : Bytes) : Decidable (SameHost s t) := inferInstanceAs (Decidable (_ ∧ _))

theorem search_skip {create : Bool} {u : Url} {defaultPort : Nat} {v : Upstream} {upstreams : List Upstream}
    (h : ¬SameHost v.host u.host) :
    upstreamSearch create u defaultPort (v :: upstreams) = upstreamSearch create u defaultPort upstreams := by
  rw [upstreamSearch, if_pos]
  by_contra hnot
  rw [not_or, not_not, Bool.not_eq_false] at hnot
  exact h hnot

theorem search_same {create : Bool} {u : Url} {defaultPort : Nat} {v : Upstream} {upstreams : List Upstream}
    (h : SameHost v.host u.host)
    (hrefused : create = true ∧ v.create = true ∨ v.create = true ∧ u.noPort = false ∨
      create = true ∧ v.noPort = false) :
    upstreamSearch create u defaultPort (v :: upstreams) = some false := by
  rw [upstreamSearch, if_neg]
  · by_cases h₁ : create = true ∧ v.create = true
    · rw [if_pos h₁]
    rw [if_neg h₁]
    by_cases h₂ : v.create = true ∧ (!u.noPort) = true
    · rw [if_pos h₂]
    rw [if_neg h₂, if_pos]
    rcases hrefused with h | h | h
    · exact absurd h h₁
    · exact absurd (by simpa using h) h₂
    · simpa using h
  · rw [not_or, not_not, Bool.not_eq_false]
    exact h

/-- Where an upstream is either defined or blank, a definition is refused for any that has its host. -/
theorem search_define {u : Url} {defaultPort : Nat} {upstreams : List Upstream}
    (h : ∀ v ∈ upstreams, v.create = true ∨ v.noPort = false) :
    upstreamSearch true u defaultPort upstreams =
      if ∃ v ∈ upstreams, SameHost v.host u.host then some false else none := by
  induction upstreams with
  | nil => rw [if_neg (by simp)]; rfl
  | cons v upstreams ih =>
    have hrest := ih fun v hv => h v (List.mem_cons_of_mem _ hv)
    by_cases hsame : SameHost v.host u.host
    · rw [if_pos ⟨v, List.mem_cons_self .., hsame⟩, search_same hsame]
      rcases h v (List.mem_cons_self ..) with hc | hp
      · exact Or.inl ⟨rfl, hc⟩
      · exact Or.inr (Or.inr ⟨rfl, hp⟩)
    · rw [search_skip hsame, hrest]
      refine if_congr ⟨?_, ?_⟩ rfl rfl
      · rintro ⟨w, hw, hws⟩
        exact ⟨w, List.mem_cons_of_mem _ hw, hws⟩
      · rintro ⟨w, hw, hws⟩
        rcases List.mem_cons.mp hw with rfl | hw
        · exact absurd hws hsame
        · exact ⟨w, hw, hws⟩

/-- A reference is refused only for a port where an upstream has been defined. -/
theorem search_reference {u : Url} {defaultPort : Nat} {upstreams : List Upstream}
    (h : upstreamSearch false u defaultPort upstreams = some false) :
    u.noPort = false ∧ ∃ v ∈ upstreams, v.create = true ∧ SameHost v.host u.host := by
  induction upstreams with
  | nil => cases h
  | cons v upstreams ih =>
    have hrest : upstreamSearch false u defaultPort upstreams = some false →
        u.noPort = false ∧ ∃ w ∈ v :: upstreams, w.create = true ∧ SameHost w.host u.host := by
      intro h
      obtain ⟨hport, w, hw, hws⟩ := ih h
      exact ⟨hport, w, List.mem_cons_of_mem _ hw, hws⟩
    rw [upstreamSearch] at h
    split at h
    · exact hrest h
    next hsame =>
    rw [not_or, not_not, Bool.not_eq_false] at hsame
    rw [if_neg (by simp)] at h
    split at h
    · next hc => exact ⟨by simpa using hc.2, v, List.mem_cons_self .., hc.1, hsame⟩
    rw [if_neg (by simp)] at h
    split at h
    · exact hrest h
    split at h
    · exact hrest h
    · cases h

/-! ### Lists of definitions -/

/-- Upstreams that have been defined, and blank ones of which the definition has been refused. -/
structure Clean (upstreams : List Upstream) : Prop where
  each : ∀ v ∈ upstreams, v.create = true ∧ v.host ≠ [] ∨ v.create = false ∧ v.noPort = false ∧ v.host = []
  distinct : Distinct upstreams

theorem Clean.nil : Clean [] := ⟨by simp, fun i j v w hv => by simp at hv⟩

/-- One more upstream, with a host that is new. -/
theorem Clean.append {upstreams : List Upstream} (h : Clean upstreams) {w : Upstream}
    (heach : w.create = true ∧ w.host ≠ [] ∨ w.create = false ∧ w.noPort = false ∧ w.host = [])
    (hnew : w.create = true → ∀ v ∈ upstreams, ¬SameHost v.host w.host) : Clean (upstreams ++ [w]) := by
  have hlast : ∀ {i : Nat} {v : Upstream}, (upstreams ++ [w])[i]? = some v →
      upstreams[i]? = some v ∧ v ∈ upstreams ∨ i = upstreams.length ∧ v = w := by
    intro i v hv
    rw [List.getElem?_append] at hv
    split at hv
    · exact Or.inl ⟨hv, List.mem_of_getElem? hv⟩
    · rw [List.getElem?_singleton] at hv
      split at hv
      · exact Or.inr ⟨by omega, (Option.some.inj hv).symm⟩
      · cases hv
  constructor
  · intro v hv
    rcases List.mem_append.mp hv with hv | hv
    · exact h.each v hv
    · rw [List.mem_singleton.mp hv]
      exact heach
  · intro i j v v' hv hv' hc hc' hsame
    rcases hlast hv with ⟨hv, hmem⟩ | ⟨rfl, rfl⟩
    · rcases hlast hv' with ⟨hv', -⟩ | ⟨-, rfl⟩
      · exact h.distinct i j v v' hv hv' hc hc' hsame
      · exact absurd hsame (hnew hc' v hmem)
    · rcases hlast hv' with ⟨-, hmem⟩ | ⟨rfl, -⟩
      · exact absurd (sameHost_symm hsame) (hnew hc v' hmem)
      · rfl

theorem Clean.blank {upstreams : List Upstream} (h : Clean upstreams) :
    Clean (upstreams ++ [({} : Upstream)]) :=
  h.append (Or.inr ⟨rfl, rfl, rfl⟩) fun hc => by cases hc

/-- A definition is refused, or it is for a host that is new. -/
theorem Clean.define {upstreams : List Upstream} (h : Clean upstreams) (u : Url) (defaultPort : Nat) :
    upstreamSearch true u defaultPort (upstreams ++ [({} : Upstream)]) = some false ∨
      upstreamSearch true u defaultPort (upstreams ++ [({} : Upstream)]) = none ∧ u.host ≠ [] ∧
        ∀ v ∈ upstreams, ¬SameHost v.host u.host := by
  rw [search_define fun v hv => (h.blank.each v hv).imp And.left fun h => h.2.1]
  by_cases hsame : ∃ v ∈ upstreams ++ [({} : Upstream)], SameHost v.host u.host
  · rw [if_pos hsame]
    exact Or.inl rfl
  · rw [if_neg hsame]
    refine Or.inr ⟨rfl, fun hempty => ?_, fun v hv hs => hsame ⟨v, List.mem_append_left _ hv, hs⟩⟩
    exact hsame ⟨{}, List.mem_append_right _ (List.mem_singleton_self _), by rw [hempty]; exact ⟨rfl, rfl⟩⟩

/-- A reference with a port is refused where an upstream has been defined. -/
theorem Clean.search {upstreams : List Upstream} (h : Clean upstreams) {u : Url} (hport : u.noPort = false)
    (hdefined : ∃ v ∈ upstreams, v.create = true ∧ SameHost v.host u.host) (defaultPort : Nat) :
    upstreamSearch false u defaultPort upstreams = some false := by
  obtain ⟨w, hw, hc, hsame⟩ := hdefined
  have hhost : u.host ≠ [] := by
    intro hempty
    rcases h.each w hw with ⟨-, hne⟩ | ⟨hnot, -⟩
    · exact hne (List.length_eq_zero_iff.mp (hsame.1.trans (congrArg List.length hempty)))
    · exact absurd hc (by simp [hnot])
  have heach := h.each
  clear h
  induction upstreams with
  | nil => cases hw
  | cons v upstreams ih =>
    by_cases hs : SameHost v.host u.host
    · rcases heach v (List.mem_cons_self ..) with ⟨hcreate, -⟩ | ⟨-, -, hempty⟩
      · exact search_same hs (Or.inr (Or.inl ⟨hcreate, hport⟩))
      · rw [hempty] at hs
        exact absurd (List.length_eq_zero_iff.mp hs.1.symm) hhost
    · rw [search_skip hs]
      rcases List.mem_cons.mp hw with rfl | hw
      · exact absurd hsame hs
      · exact ih hw fun v hv => heach v (List.mem_cons_of_mem _ hv)

/-! ### Calls -/

/-- What a call returns that is declined, with a list that is still clean. -/
theorem Declined.run {s : Option (List Upstream)} {c : Call} (h : Declined s c) (hs : Clean (s.getD []))
    {r : Result} (hr : c.run s = some r) :
    Clean (r.upstreams.getD []) ∧ (∀ v ∈ s.getD [], v ∈ r.upstreams.getD []) ∧ (r.ok = true → r.Found c.url ∧
      (∀ v ∈ s.getD [], ¬SameHost v.host c.url.host) ∧
      ∃ v ∈ r.upstreams.getD [], v.create = true ∧ SameHost v.host c.url.host) := by
  cases c with
  | define u defaultPort =>
    cases hr
    rcases hs.define u defaultPort with hfalse | ⟨hnone, hhost, hnew⟩
    · unfold upstreamAdd
      rw [hfalse]
      exact ⟨hs.blank, fun v hv => List.mem_append_left _ hv, by simp⟩
    · unfold upstreamAdd
      rw [hnone]
      dsimp only
      have hmodify : (s.getD [] ++ [({} : Upstream)]).modify (s.getD []).length (·.setUrl true u defaultPort) =
          s.getD [] ++ [Upstream.setUrl {} true u defaultPort] := by
        rw [List.modify_eq_take_cons_drop (by simp)]
        simp
      rw [hmodify]
      have hsame : SameHost u.host u.host := ⟨rfl, by simp [sameCase]⟩
      refine ⟨hs.append (Or.inl ⟨rfl, hhost⟩) fun _ => hnew, fun v hv => List.mem_append_left _ hv, fun _ => ?_⟩
      refine ⟨⟨_, Upstream.setUrl {} true u defaultPort, rfl, by simp, hsame, Or.inr (Or.inr rfl)⟩, hnew, ?_⟩
      exact ⟨_, List.mem_append_right _ (List.mem_singleton_self _), rfl, hsame⟩
  | reference u defaultPort =>
    rw [Call.run] at hr
    by_cases hok : u.ok = false
    · rw [if_pos (by simp [hok])] at hr
      cases hr
      exact ⟨hs, fun v hv => hv, by simp⟩
    rw [if_neg (by simpa using hok)] at hr
    obtain ⟨upstreams, rfl, rfl⟩ := Option.map_eq_some_iff.mp hr
    obtain ⟨hport, hdefined⟩ := (h.resolve_left hok).resolve_left (by simp)
    have hsearch := hs.search hport hdefined defaultPort
    unfold upstreamAdd
    rw [show upstreamSearch false u defaultPort upstreams = some false from hsearch]
    exact ⟨hs, fun v hv => hv, by simp⟩

/-- A call that is not declined returns true, and leaves `*conf` NULL. -/
theorem declined_of_found {s : Option (List Upstream)} {c : Call}
    (h : ∀ r, c.run s = some r → r.ok = true → r.Found c.url) : Declined s c := by
  cases c with
  | define u defaultPort => trivial
  | reference u defaultPort =>
    by_contra hnot
    obtain ⟨hok, hs, hport⟩ := (not_or.mp hnot).imp_right not_or.mp
    obtain ⟨upstreams, rfl⟩ := Option.ne_none_iff_exists'.mp hs
    have hsearch : upstreamSearch false u defaultPort upstreams ≠ some false := fun hfalse =>
      hport (search_reference hfalse)
    have htrue : (upstreamAdd false u defaultPort none upstreams).1 = true := by
      unfold upstreamAdd
      cases hfound : upstreamSearch false u defaultPort upstreams with
      | none => rfl
      | some found =>
        cases found with
        | true => rfl
        | false => exact absurd hfound hsearch
    obtain ⟨i, v, hconf, -⟩ := h _ (if_neg (by simpa using hok)) htrue
    cases hconf

/-! ### Sequences of calls -/

theorem history_cons {s : Option (List Upstream)} {c : Call} {calls : List Call} {r : Result}
    (h : c.run s = some r) :
    history s (c :: calls) = (c, r) :: history r.upstreams calls := by
  rw [history, h]
  rfl

/-- What is defined later has a host of its own. -/
theorem AllDeclined.fresh {s : Option (List Upstream)} {calls : List Call} (h : AllDeclined s calls)
    (hs : Clean (s.getD [])) {e : Call × Result} (he : e ∈ history s calls) (hok : e.2.ok = true) :
    ∀ v ∈ s.getD [], ¬SameHost v.host e.1.url.host := by
  induction calls generalizing s with
  | nil => cases he
  | cons c calls ih =>
    cases hr : c.run s with
    | none =>
      rw [history, hr] at he
      cases he
    | some r =>
      obtain ⟨hclean, hkept, hfound⟩ := h.1.run hs hr
      rw [history_cons hr] at he
      rcases List.mem_cons.mp he with rfl | he
      · exact (hfound hok).2.1
      · exact fun v hv => ih (h.2 r hr) hclean he v (hkept v hv)

theorem AllDeclined.resolves {s : Option (List Upstream)} {calls : List Call} (h : AllDeclined s calls)
    (hs : Clean (s.getD [])) : Resolves s calls := by
  induction calls generalizing s with
  | nil => exact ⟨by simp [history], by simp [history], by simp [history]⟩
  | cons c calls ih =>
    cases hr : c.run s with
    | none =>
      have hnil : history s (c :: calls) = [] := by
        rw [history, hr]
        rfl
      constructor <;> simp [hnil]
    | some r =>
      obtain ⟨hclean, hkept, hfound⟩ := h.1.run hs hr
      have hrest := ih (h.2 r hr) hclean
      have hother : r.ok = true → ∀ e ∈ history r.upstreams calls, e.2.ok = true →
          ¬SameHost c.url.host e.1.url.host := by
        intro hok e he hok' hsame
        obtain ⟨v, hv, -, hvs⟩ := (hfound hok).2.2
        exact (h.2 r hr).fresh hclean he hok' v hv (sameHost_trans hvs hsame)
      constructor
      · intro e he hok
        rw [history_cons hr] at he
        rcases List.mem_cons.mp he with rfl | he
        · exact (hfound hok).1
        · exact hrest.found e he hok
      · intro e he e' he' hok hok' hsame hport
        rw [history_cons hr] at he he'
        rcases List.mem_cons.mp he with rfl | he
        · rcases List.mem_cons.mp he' with rfl | he'
          · rfl
          · exact absurd hsame (hother hok e' he' hok')
        · rcases List.mem_cons.mp he' with rfl | he'
          · exact absurd (sameHost_symm hsame) (hother hok' e he hok)
          · exact hrest.same e he e' he' hok hok' hsame hport
      · intro e he
        rw [history_cons hr] at he
        rcases List.mem_cons.mp he with rfl | he
        · exact hclean.distinct
        · exact hrest.distinct e he

theorem allDeclined_of_found {s : Option (List Upstream)} {calls : List Call}
    (h : ∀ e ∈ history s calls, e.2.ok = true → e.2.Found e.1.url) : AllDeclined s calls := by
  induction calls generalizing s with
  | nil => trivial
  | cons c calls ih =>
    refine ⟨declined_of_found fun r hr hok => ?_, fun r hr => ih fun e he hok => ?_⟩
    · exact h (c, r) (by rw [history_cons hr]; exact List.mem_cons_self ..) hok
    · exact h e (by rw [history_cons hr]; exact List.mem_cons_of_mem _ he) hok

/-- **The calls resolve** exactly where every reference among them is refused. -/
theorem resolves_iff (calls : List Call) : Resolves none calls ↔ AllDeclined none calls :=
  ⟨fun h => allDeclined_of_found h.found, fun h => h.resolves Clean.nil⟩

/-- A reference to an upstream that has been defined returns true and is given no upstream. -/
theorem reference_not_resolved : ¬Resolves none
    [.define { host := ascii "db", noPort := true } 0,
      .reference { host := ascii "db", noPort := true } 0] := by
  intro h
  obtain ⟨i, v, hconf, -⟩ := h.found _ (List.mem_cons_of_mem _ (List.mem_cons_self ..)) rfl
  cases hconf

/-! ### The calls of the directives -/

section
variable (env : Env) (name : String) (v : Bytes)

/-- `pg_pass` makes a reference. -/
theorem httpPostgresPgpass_run (r : Ref) (o : Objects) : httpPostgresPgpass env v r o =
    ((Call.reference (env.parseUrl { url := v, noResolve := true }) 0).run o.upstreams).elim (.error .crashed)
      fun result =>
        if result.ok then .ok { o.setText r .pgPass v with upstreams := result.upstreams }
        else .error (.error (.addUpstream v)) := by
  unfold httpPostgresPgpass Call.run
  dsimp only
  by_cases hok : (!(env.parseUrl { url := v, noResolve := true }).ok) = true
  · rw [if_pos hok, if_pos hok]
    rfl
  · rw [if_neg hok, if_neg hok]
    cases o.upstreams with
    | none => rfl
    | some upstreams =>
      dsimp only [Option.map_some, Option.elim_some]
      rcases upstreamAdd false (env.parseUrl { url := v, noResolve := true }) 0 none upstreams with ⟨_ | _, _⟩
      · rfl
      · rfl

/-- `name` makes a definition for the upstream that `upstream` has created. -/
theorem httpUpstreamName_run {parent : Ref} {o o' : Objects} {i : Nat}
    (h : create env .upstream parent o = .ok (.upstream i, o')) : httpUpstreamName name v i o' =
      ((Call.define { host := v, noPort := true } 0).run o.upstreams).elim (.error .crashed) fun result =>
        if result.ok then
          .ok { o' with upstreams := result.upstreams.map (·.modify i fun w => { w with servers := some [] }) }
        else .error (.error (.invalidValue name v)) := by
  cases h
  unfold httpUpstreamName Call.run
  dsimp only [Option.elim_some]
  rcases upstreamAdd true { host := v, noPort := true } 0 (some (o.upstreams.getD []).length)
    (o.upstreams.getD [] ++ [({} : Upstream)]) with ⟨_ | _, _⟩
  · rfl
  · rfl

end

end PgRest.Conf
