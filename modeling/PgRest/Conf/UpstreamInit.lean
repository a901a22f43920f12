import PgRest.Conf.Order
import PgRest.Conf.Typed
import PgRest.Conf.Upstream

/-! The check of the upstreams when the configuration has been read. `upstream` creates the list,
`name` the array of servers of its upstream, and a reference to one address that of its own; the check
looks at all of them. -/
namespace PgRest.Conf

/-- The loop of `pgrest_http_upstream_init`, from an upstream on; `none` where an array is used that has
not been created. -/
def upstreamInitFrom (policy : Nat → Int) (i : Nat) : List Upstream → Option Bool
  | [] => some true
  | v :: upstreams =>
    match v.servers with
    | none => none
    | some servers =>
      if servers.length = 0 then some false
      -- `PGREST_HTTP_UPSTREAM_UNKNOW`
      else if 1 < servers.length ∧ policy i = 2 then some false
      else upstreamInitFrom policy (i + 1) upstreams

/-- `pgrest_http_upstream_init`; `none` also where there is no list. -/
def upstreamInit (o : Objects) : Option Bool :=
  o.upstreams.bind (upstreamInitFrom (fun i => o.ints (.upstream i) .policy) 0)

/-- An upstream has a server, and with more than one it has a policy. -/
def Upstream.Fit (v : Upstream) (policy : Int) : Prop :=
  1 ≤ (v.servers.getD []).length ∧ (1 < (v.servers.getD []).length → policy ≠ 2)

/-- The step is a `name`, for which `pgrest_http_upstream_add` goes through the list. -/
def Defines (env : Env) (w : Walk) (s : Step) : Prop :=
  ∃ name v i, s = .set name (.string v) ∧ cmdFind env.platform name = some (.scalar .upstreamName) ∧
    w.stack.headD .null = .upstream i

/-- It is a `pg_pass` that can be parsed, for which it goes through the list. -/
def Refers (env : Env) (w : Walk) (s : Step) : Prop :=
  ∃ name v i, s = .set name (.string v) ∧ cmdFind env.platform name = some (.scalar .postgresPgpass) ∧
    w.stack.headD .null = .postgres i ∧ (env.parseUrl { url := v, noResolve := true }).ok = true

/-- It opens an `upstream`. -/
def Opens (env : Env) (s : Step) : Prop :=
  ∃ name, s = .enter name ∧ cmdFind env.platform name = some (.object (some .upstream))

/-- A step that is come to. -/
def Reached (env : Env) (root : Json) (before : List Step) (w : Walk) (s : Step) : Prop :=
  (∃ after, walk root = before ++ s :: after) ∧ Walk.run env .start before = .ok w

/-- No list and no array is used that has not been created, and the check finds what it looks for. -/
structure Total (env : Env) (root : Json) : Prop where
  add : ∀ before w s, Reached env root before w s → Defines env w s ∨ Refers env w s →
    w.objects.upstreams ≠ none
  init : ∀ o, parse env root = .ok o → ∃ b, upstreamInit o = some b ∧
    (b = true ↔ ∀ (i : Nat) (v : Upstream), (o.upstreams.getD [])[i]? = some v →
      v.Fit (o.ints (.upstream i) .policy))

/-! ### Which arrays there are -/

/-- An upstream of the list has the host, and is defined and not to have a port, or goes with the port. -/
def Known (u : Url) (upstreams : List Upstream) : Prop :=
  ∃ v ∈ upstreams, SameHost v.host u.host ∧
    (v.create = true ∧ u.noPort = false ∨ v.port = 0 ∨ u.port = 0 ∨ v.port = u.port)

instance (u : Url) (upstreams : List Upstream) : Decidable (Known u upstreams) :=
  inferInstanceAs (Decidable (∃ v ∈ upstreams, _))

/-- The array that `pgrest_http_upstream_add` creates itself is for one address, with a port or of a unix
socket. -/
def Url.one (u : Url) : Bool := decide (u.addrs.length = 1 ∧ (u.port ≠ 0 ∨ u.unix = true))

/-- An array of servers for each upstream or not; `none` without a list. -/
abbrev Created := Option (List Bool)

def Objects.created (o : Objects) : Created := o.upstreams.map (List.map (·.servers.isSome))

/-- The arrays after a step: `upstream` adds an upstream without one, `name` creates its upstream's, and
`pg_pass` adds an upstream for a host that is not there, with an array for an address with a port or
that of a unix socket, if it is the only one. -/
def Created.step (env : Env) (w : Walk) (a : Created) : Step → Created
  | .enter name =>
    if cmdFind env.platform name = some (.object (some .upstream)) then some (a.getD [] ++ [false]) else a
  | .set name (.string v) =>
    match cmdFind env.platform name, w.stack.headD .null with
    | some (.scalar .upstreamName), .upstream i => a.map fun l => l.set i true
    | some (.scalar .postgresPgpass), _ =>
      let u := env.parseUrl { url := v, noResolve := true }
      if Known u (w.objects.upstreams.getD []) then a
      else a.map fun l => l ++ [u.one]
    | _, _ => a
  | _ => a

/-- The arrays after more steps, as far as they go. -/
def Created.run (env : Env) (w : Walk) (a : Created) : List Step → Created
  | [] => a
  | s :: steps =>
    match w.step env s with
    | .error _ => a
    | .ok w' => Created.run env w' (a.step env w s) steps

/-- The check refuses an upstream: its array has no servers, or more than one and it has no policy. -/
def Refused (o : Objects) (i : Nat) : Prop :=
  ∃ v servers, (o.upstreams.getD [])[i]? = some v ∧ v.servers = some servers ∧
    (servers.length = 0 ∨ 1 < servers.length ∧ o.ints (.upstream i) .policy = 2)

/-- Every `pg_pass` that can be parsed stands behind an `upstream`; and if the document is accepted there
is an `upstream`, and those for which no array is created stand behind one that is refused. -/
structure Covered (env : Env) (root : Json) : Prop where
  refers : ∀ before w s, Reached env root before w s → Refers env w s → ∃ t ∈ before, Opens env t
  opened : ∀ o, parse env root = .ok o → ∃ t ∈ walk root, Opens env t
  guarded : ∀ o, parse env root = .ok o → ∀ i : Nat,
    ((Created.run env .start none (walk root)).getD [])[i]? = some false → ∃ j < i, Refused o j

/-! ### Lists of arrays -/

section Lists
variable {α β : Type} {f : α → α} {g : α → β} {i : Nat}

theorem map_modify_kept (h : ∀ a, g (f a) = g a) (l : List α) (i : Nat) : (l.modify i f).map g = l.map g := by
  apply List.ext_getElem?
  intro j
  rw [List.getElem?_map, List.getElem?_modify, List.getElem?_map]
  by_cases hj : i = j
  · cases l[j]? <;> simp [hj, h]
  · simp [hj]

theorem map_modify_const {b : β} (h : ∀ a, g (f a) = b) (l : List α) (i : Nat) :
    (l.modify i f).map g = (l.map g).set i b := by
  apply List.ext_getElem?
  intro j
  rw [List.getElem?_map, List.getElem?_modify, List.getElem?_set', List.getElem?_map]
  by_cases hj : i = j
  · cases l[j]? <;> simp [hj, h]
  · simp [hj]

theorem map_set_kept {a a' : α} {l : List α} (ha : l[i]? = some a) (h : g a' = g a) :
    (l.set i a').map g = l.map g := by
  obtain ⟨hi, rfl⟩ := List.getElem?_eq_some_iff.mp ha
  rw [List.map_set, h, ← List.getElem_map g (h := by simpa using hi)]
  exact List.set_getElem_self _

end Lists

/-! ### Steps -/

theorem search_eq_none {u : Url} {upstreams : List Upstream} :
    upstreamSearch false u 0 upstreams = none ↔ ¬Known u upstreams := by
  induction upstreams with
  | nil => simp [upstreamSearch, Known]
  | cons v upstreams ih =>
    have hcons : Known u (v :: upstreams) ↔ SameHost v.host u.host ∧
        (v.create = true ∧ u.noPort = false ∨ v.port = 0 ∨ u.port = 0 ∨ v.port = u.port) ∨
        Known u upstreams := by
      simp [Known]
    rw [hcons, not_or]
    by_cases hsame : SameHost v.host u.host
    · by_cases hrefused : v.create = true ∧ u.noPort = false
      · rw [search_same hsame (Or.inr (Or.inl hrefused))]
        simp [hsame, hrefused]
      · rw [upstreamSearch, if_neg (by simpa [SameHost] using hsame), if_neg (by simp),
          if_neg (by simpa using hrefused), if_neg (by simp)]
        by_cases hport : v.port ≠ 0 ∧ u.port ≠ 0 ∧ v.port ≠ u.port
        · rw [if_pos hport, ih]
          simp [hrefused, hport]
        · rw [if_neg hport, if_neg (by simp)]
          have hgoes : v.port = 0 ∨ u.port = 0 ∨ v.port = u.port := by
            by_contra hnot
            exact hport (by simpa [not_or] using hnot)
          simp [hsame, hgoes]
    · rw [search_skip hsame, ih]
      simp [hsame]

section Steps
variable {env : Env} {name : String} {r r' : Ref} {o o' : Objects} {w w' : Walk} {s : Step}

theorem create_created {c : CreateHandler} (h : create env c r o = .ok (r', o')) :
    o'.created = if c = .upstream then some (o.created.getD [] ++ [false]) else o.created := by
  by_cases hc : c = .upstream
  · rw [if_pos hc]
    subst hc
    cases h
    cases hu : o.upstreams <;> simp [Objects.created, hu]
  rw [if_neg hc]
  by_cases hs : c = .upstreamServer
  · subst hs
    cases r <;> try cases h
    next i =>
    rw [create] at h
    split at h
    · cases h
    next upstreams hu =>
    split at h
    · cases h
    next v hv =>
    split at h
    · cases h
    next servers hservers =>
    cases h
    show some ((upstreams.set i _).map _) = o.upstreams.map _
    rw [hu, map_set_kept hv (by simp [hservers])]
    rfl
  · have hkeep : o'.upstreams = o.upstreams := create_frame (c := .upstreams) h fun hk => by
      cases c <;> first | contradiction | exact hk.elim id (by simp)
    rw [Objects.created, hkeep]
    rfl

theorem setUrl_blank (c : Bool) (u : Url) (defaultPort : Nat) :
    (Upstream.setUrl {} c u defaultPort).servers.isSome = u.one := by
  by_cases h : u.addrs.length = 1 ∧ (u.port ≠ 0 ∨ u.unix = true)
  · rw [Upstream.setUrl, if_pos h, Url.one, decide_eq_true h]
    rfl
  · rw [Upstream.setUrl, if_neg h, Url.one, decide_eq_false h]
    rfl

/-- What is found or set in the list, the arrays apart, has the array that `name` creates. -/
theorem httpUpstreamName_created {v : Bytes} {i : Nat} (h : httpUpstreamName name v i o = .ok o') :
    o'.created = o.created.map fun l => l.set i true := by
  rw [httpUpstreamName] at h
  split at h
  · cases h
  next upstreams hu =>
  split at h
  · cases h
  next added hadd =>
  cases h
  have hadded : added.map (·.servers.isSome) = upstreams.map (·.servers.isSome) := by
    rw [upstreamAdd] at hadd
    split at hadd
    · cases hadd
      rfl
    · cases hadd
      exact map_modify_kept (fun w => by rw [Upstream.setUrl, if_neg (by simp)]) upstreams i
  rw [Objects.created, Objects.created, hu]
  refine congrArg some ?_
  rw [← hadded]
  exact map_modify_const (b := true) (fun _ => rfl) added i

theorem httpUpstreamSaddress_created {v : Bytes} {i k : Nat}
    (h : httpUpstreamSaddress env name v i k o = .ok o') : o'.created = o.created := by
  rw [httpUpstreamSaddress] at h
  split at h
  · cases h
  cases h
  show (o.upstreams.map _).map _ = o.upstreams.map _
  rw [Option.map_map]
  refine congrArg (o.upstreams.map ·) (funext fun upstreams => map_modify_kept (fun w => ?_) upstreams i)
  exact Option.isSome_map

theorem httpPostgresPgpass_created {v : Bytes} (h : httpPostgresPgpass env v r o = .ok o') :
    o'.created =
      if Known (env.parseUrl { url := v, noResolve := true }) (o.upstreams.getD []) then o.created
      else o.created.map fun l => l ++ [(env.parseUrl { url := v, noResolve := true }).one] := by
  rw [httpPostgresPgpass] at h
  dsimp only at h
  split at h
  · cases h
  split at h
  · cases h
  next upstreams hu =>
  split at h
  · cases h
  next added hadd =>
  cases h
  rw [upstreamAdd] at hadd
  simp only [hu, Option.getD_some]
  show some (added.map _) = if _ then o.upstreams.map _ else (o.upstreams.map _).map _
  rw [hu]
  by_cases hknown : Known (env.parseUrl { url := v, noResolve := true }) upstreams
  · rw [if_pos hknown]
    split at hadd
    · cases hadd
      rfl
    next hnone => exact absurd hknown (search_eq_none.mp hnone)
  · rw [if_neg hknown, search_eq_none.mpr hknown] at *
    cases hadd
    refine congrArg some (List.map_append.trans ?_)
    rw [List.map_singleton, setUrl_blank]

/-- The handlers that touch the list. -/
theorem use_upstreams {set : SetHandler} {v : Value} : Cell.upstreams ∈ (set.use env v).touches ↔
    set = .upstreamName ∨ set = .upstreamSaddress ∨ set = .postgresPgpass := by
  constructor
  · rintro (hr | ⟨w, -, hw⟩)
    · cases set <;> cases v <;> simp [SetHandler.use] at hr <;> simp
    · cases w <;> cases hw
  · rintro (rfl | rfl | rfl) <;> cases v <;> exact Or.inl (by simp [SetHandler.use])

theorem createdStep_other {v : Value} {set : SetHandler} (a : Created)
    (hcmd : cmdFind env.platform name = some (.scalar set))
    (h : ¬(set = .upstreamName ∨ set = .upstreamSaddress ∨ set = .postgresPgpass)) :
    a.step env w (.set name v) = a := by
  cases v with
  | string v =>
    rw [Created.step]
    split
    next hname _ => exact absurd (Or.inl (Handler.scalar.inj (Option.some.inj (hcmd.symm.trans hname)))) h
    next hpass =>
      exact absurd (Or.inr (Or.inr (Handler.scalar.inj (Option.some.inj (hcmd.symm.trans hpass))))) h
    next => rfl
  | _ => rfl

theorem parseType_created {v : Value} (h : parseType env name v (w.stack.headD .null) w.objects = .ok o') :
    o'.created = w.objects.created.step env w (.set name v) := by
  have hwithin := (parseType_within name v).blind h .upstreams
  rw [parseType] at h
  split at h
  · cases h
  · cases h
  next set hcmd =>
  rw [scalarUse, hcmd] at hwithin
  rw [SetHandler.run] at h
  split at h
  swap
  · cases h
  next hfits =>
  obtain ⟨hkind, hstruct⟩ := hfits
  by_cases htouches : Cell.upstreams ∈ (set.use env v).touches
  · rcases use_upstreams.mp htouches with rfl | rfl | rfl <;> cases v <;> try cases hkind
    · cases hr : w.stack.headD .null <;> rw [hr] at h hstruct <;> try cases hstruct
      simp only [Created.step, hcmd, hr]
      exact httpUpstreamName_created h
    · cases hr : w.stack.headD .null <;> rw [hr] at h hstruct <;> try cases hstruct
      simp only [Created.step, hcmd, hr]
      exact httpUpstreamSaddress_created h
    · simp only [Created.step, hcmd]
      exact httpPostgresPgpass_created h
  · have hkeep : o'.upstreams = w.objects.upstreams := hwithin htouches
    rw [createdStep_other _ hcmd fun hset => htouches (use_upstreams.mpr hset), Objects.created, hkeep]
    rfl

/-- What a step does to the arrays. -/
theorem step_created (h : w.step env s = .ok w') : w'.objects.created = w.objects.created.step env w s := by
  cases s with
  | leave =>
    cases h
    rfl
  | find name =>
    obtain ⟨o, ho, rfl⟩ := map_eq_ok h
    rw [findArray] at ho
    split at ho <;> cases ho
    rfl
  | set name v =>
    obtain ⟨o, ho, rfl⟩ := map_eq_ok h
    exact parseType_created ho
  | enter name =>
    obtain ⟨⟨r, o⟩, ho, rfl⟩ := map_eq_ok h
    rw [openObject] at ho
    rw [Created.step]
    rcases hc : cmdFind env.platform name with _ | ⟨_ | c⟩ | set <;> rw [hc] at ho
    · cases ho
    · cases ho
      rfl
    · rw [create_created ho]
      exact if_congr (by simp) rfl rfl
    · cases ho

/-- The list is there as soon as an `upstream` has been opened. -/
theorem createdStep_isSome (a : Created) : (a.step env w s).isSome = true ↔ a.isSome = true ∨ Opens env s := by
  cases s with
  | enter name =>
    rw [Created.step]
    by_cases hcmd : cmdFind env.platform name = some (.object (some .upstream))
    · rw [if_pos hcmd]
      simp [Opens, hcmd]
    · rw [if_neg hcmd]
      simp [Opens, hcmd]
  | set name v =>
    have hnot : ¬Opens env (.set name v) := by simp [Opens]
    cases v with
    | string v =>
      rw [Created.step]
      split
      · simp [hnot]
      · dsimp only
        split <;> simp [hnot]
      · simp [hnot]
    | _ => simp [Created.step, hnot]
  | _ => simp [Created.step, Opens]

/-- What is open after a step, where it is an `upstream`. -/
theorem step_stack (h : w.step env s = .ok w') {i : Nat} (hi : Ref.upstream i ∈ w'.stack) :
    Ref.upstream i ∈ w.stack ∨ Opens env s := by
  cases s with
  | leave =>
    cases h
    exact Or.inl (List.mem_of_mem_tail hi)
  | find name | set name v =>
    obtain ⟨o, -, rfl⟩ := map_eq_ok h
    exact Or.inl hi
  | enter name =>
    obtain ⟨⟨r, o⟩, ho, rfl⟩ := map_eq_ok h
    rcases List.mem_cons.mp hi with rfl | hi
    · rw [openObject] at ho
      rcases hc : cmdFind env.platform name with _ | ⟨_ | c⟩ | set <;> rw [hc] at ho
      · cases ho
      · injection ho with ho
        injection ho with hr
        cases hstack : w.stack with
        | nil => simp [hstack] at hr
        | cons r rest =>
          rw [hstack] at hr
          exact Or.inl (hr ▸ List.mem_cons_self ..)
      · have hstruct := create_struct ho
        refine Or.inr ⟨name, rfl, ?_⟩
        rw [hc]
        cases c <;> first | rfl | cases hstruct
      · cases ho
    · exact Or.inl hi

end Steps

/-! ### Runs -/

section Runs
variable {env : Env} {w w' : Walk} {steps : List Step}

theorem run_created (h : w.run env steps = .ok w') :
    w'.objects.created = Created.run env w w.objects.created steps := by
  induction steps generalizing w with
  | nil =>
    cases h
    rfl
  | cons s steps ih =>
    obtain ⟨w₁, hs, h⟩ := Walk.run_cons h
    rw [Created.run, hs, ih h, step_created hs]

theorem run_opened (h : w.run env steps = .ok w') :
    w'.objects.upstreams ≠ none ↔ w.objects.upstreams ≠ none ∨ ∃ t ∈ steps, Opens env t := by
  induction steps generalizing w with
  | nil =>
    cases h
    simp
  | cons s steps ih =>
    obtain ⟨w₁, hs, h⟩ := Walk.run_cons h
    have hstep : (w.objects.created.step env w s).isSome = true ↔
        w.objects.created.isSome = true ∨ Opens env s := createdStep_isSome _
    rw [← step_created hs, Objects.created, Objects.created, Option.isSome_map, Option.isSome_map] at hstep
    rw [ih h, ← Option.isSome_iff_ne_none, hstep, ← Option.isSome_iff_ne_none, List.exists_mem_cons_iff,
      or_assoc]

/-- An `upstream` that is open has been opened. -/
theorem run_stack (h : w.run env steps = .ok w') {i : Nat} (hi : Ref.upstream i ∈ w'.stack) :
    Ref.upstream i ∈ w.stack ∨ ∃ t ∈ steps, Opens env t := by
  induction steps generalizing w with
  | nil =>
    cases h
    exact Or.inl hi
  | cons s steps ih =>
    obtain ⟨w₁, hs, h⟩ := Walk.run_cons h
    rw [List.exists_mem_cons_iff]
    rcases ih h with hmem | hlater
    · rcases step_stack hs hmem with hmem | hopens
      · exact Or.inl hmem
      · exact Or.inr (Or.inl hopens)
    · exact Or.inr (Or.inr hlater)

end Runs

/-! ### The check -/

section Check
variable {policy : Nat → Int} {k : Nat} {upstreams : List Upstream}

/-- An upstream that is refused, by its place in the list. -/
def RefusedAt (policy : Nat → Int) (k : Nat) (upstreams : List Upstream) (j : Nat) : Prop :=
  ∃ v servers, upstreams[j]? = some v ∧ v.servers = some servers ∧
    (servers.length = 0 ∨ 1 < servers.length ∧ policy (k + j) = 2)

/-- The check comes to an end where an upstream without an array stands behind one that is refused. -/
theorem upstreamInitFrom_isSome : (upstreamInitFrom policy k upstreams).isSome = true ↔
    ∀ i : Nat, (upstreams.map (·.servers.isSome))[i]? = some false →
      ∃ j < i, RefusedAt policy k upstreams j := by
  induction upstreams generalizing k with
  | nil => simp [upstreamInitFrom]
  | cons v upstreams ih =>
    rw [upstreamInitFrom]
    cases hv : v.servers with
    | none =>
      refine iff_of_false (by simp) fun h => ?_
      obtain ⟨j, hj, -⟩ := h 0 (by simp [hv])
      exact absurd hj (Nat.not_lt_zero j)
    | some servers =>
      dsimp only
      by_cases hrefused : servers.length = 0 ∨ 1 < servers.length ∧ policy k = 2
      · have hfirst : RefusedAt policy k (v :: upstreams) 0 := ⟨v, servers, rfl, hv, hrefused⟩
        refine iff_of_true ?_ fun i hi => ⟨0, ?_, hfirst⟩
        · rcases hrefused with hzero | hmany
          · rw [if_pos hzero]
            rfl
          · rw [if_neg (by omega), if_pos hmany]
            rfl
        · cases i with
          | zero => simp [hv] at hi
          | succ i => exact Nat.succ_pos i
      · rw [if_neg fun h => hrefused (Or.inl h), if_neg fun h => hrefused (Or.inr h), ih]
        have hnext (j : Nat) : RefusedAt policy k (v :: upstreams) (j + 1) ↔
            RefusedAt policy (k + 1) upstreams j := by
          rw [RefusedAt, RefusedAt, List.getElem?_cons_succ, show k + (j + 1) = k + 1 + j by omega]
        constructor
        · intro h i hi
          cases i with
          | zero => simp [hv] at hi
          | succ i =>
            obtain ⟨j, hj, hat⟩ := h i (by simpa using hi)
            exact ⟨j + 1, Nat.succ_lt_succ hj, (hnext j).mpr hat⟩
        · intro h i hi
          obtain ⟨j, hj, hat⟩ := h (i + 1) (by simpa using hi)
          cases j with
          | zero =>
            obtain ⟨w, servers', hw, hservers, hbad⟩ := hat
            cases hw
            rw [hv] at hservers
            cases hservers
            exact absurd hbad hrefused
          | succ j => exact ⟨j, Nat.lt_of_succ_lt_succ hj, (hnext j).mp hat⟩

/-- It is true where every upstream is as it should be. -/
theorem upstreamInitFrom_true {b : Bool} (h : upstreamInitFrom policy k upstreams = some b) :
    b = true ↔ ∀ (i : Nat) (v : Upstream), upstreams[i]? = some v → v.Fit (policy (k + i)) := by
  induction upstreams generalizing k with
  | nil =>
    cases h
    simp
  | cons v upstreams ih =>
    have hsplit : (∀ (i : Nat) (w : Upstream), (v :: upstreams)[i]? = some w → w.Fit (policy (k + i))) ↔
        v.Fit (policy k) ∧ ∀ (i : Nat) (w : Upstream), upstreams[i]? = some w → w.Fit (policy (k + 1 + i)) := by
      constructor
      · intro h
        refine ⟨h 0 v rfl, fun i w hw => ?_⟩
        rw [Nat.add_assoc, Nat.add_comm 1 i]
        exact h (i + 1) w hw
      · rintro ⟨hv, h⟩ i w hw
        cases i with
        | zero =>
          cases hw
          exact hv
        | succ i =>
          rw [Nat.add_comm i 1, ← Nat.add_assoc]
          exact h i w hw
    rw [hsplit]
    rw [upstreamInitFrom] at h
    split at h
    · cases h
    next servers hservers =>
    have hfit : v.Fit (policy k) ↔ ¬(servers.length = 0 ∨ 1 < servers.length ∧ policy k = 2) := by
      rw [Upstream.Fit, hservers, Option.getD_some]
      constructor
      · rintro ⟨hone, hmany⟩ (hzero | ⟨hlt, hpolicy⟩)
        · omega
        · exact hmany hlt hpolicy
      · intro hnot
        exact ⟨by omega, fun hlt hpolicy => hnot (Or.inr ⟨hlt, hpolicy⟩)⟩
    split at h
    next hzero =>
      cases h
      exact iff_of_false (by simp) fun hall => hfit.mp hall.1 (Or.inl hzero)
    split at h
    next hmany =>
      cases h
      exact iff_of_false (by simp) fun hall => hfit.mp hall.1 (Or.inr hmany)
    next hzero hmany =>
      rw [ih h]
      exact ⟨fun hall => ⟨hfit.mpr (not_or.mpr ⟨hzero, hmany⟩), hall⟩, And.right⟩

end Check

section Document
variable {env : Env} {root : Json} {o : Objects}

/-- The steps leave the arrays as they are when the document has been accepted. -/
theorem parse_walk (h : parse env root = .ok o) :
    ∃ w, Walk.run env .start (walk root) = .ok w ∧ o.upstreams = w.objects.upstreams := by
  obtain ⟨o₁, h₁, h₂, -⟩ := parse_ok h
  rw [run_walk, h₁]
  refine ⟨_, rfl, ?_⟩
  rw [defaultValues] at h₂
  split at h₂ <;> cases h₂
  · rfl
  · rfl

/-- The check, where there is a list, comes to an end if no array is missing. -/
theorem upstreamInit_isSome : (upstreamInit o).isSome = true ↔ o.upstreams ≠ none ∧
    ∀ i : Nat, (o.created.getD [])[i]? = some false → ∃ j < i, Refused o j := by
  rw [upstreamInit, Objects.created]
  cases hu : o.upstreams with
  | none => simp
  | some upstreams =>
    rw [Option.bind_some, upstreamInitFrom_isSome]
    simp only [Option.map_some, Option.getD_some, ne_eq, reduceCtorEq, not_false_eq_true, true_and]
    simp only [RefusedAt, Refused, hu, Option.getD_some, Nat.zero_add]

theorem upstreamInit_true {b : Bool} (h : upstreamInit o = some b) :
    b = true ↔ ∀ (i : Nat) (v : Upstream), (o.upstreams.getD [])[i]? = some v →
      v.Fit (o.ints (.upstream i) .policy) := by
  obtain ⟨upstreams, hu, hinit⟩ := Option.bind_eq_some_iff.mp h
  rw [upstreamInitFrom_true hinit, hu]
  simp

end Document

end PgRest.Conf
