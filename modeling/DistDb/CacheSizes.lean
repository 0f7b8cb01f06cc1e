/-
  DistDb.CacheSizes — what the sizes of the caches change in a run, and what they do not.

  Two runs of the same commands are compared, in which servers are added with caches of other
  sizes.  A `Simulation` is a relation between servers that every operation keeps, and the rule for
  it (`Simulation.run`) is proved once.  There are two of them:
    * `CacheWithin` — the smaller cache holds the most recent names of the larger one, and the
      servers are the same but for their caches,
    * `SameAnswers` — the caches are coherent, and the servers are the same but for their caches.

  Main results:
    * `larger_caches_keep_hits` — with larger caches every access that was a hit still is, and what
      is stored, pending, acknowledged and reported as executed stays the same,
    * `cache_sizes_do_not_show` — in runs whose removals agree, the messages of the responses do not
      depend on the sizes at all.
-/
import DistDb.Coherence

namespace DistDb

open Lib HashRing

/-! ## §1. Two runs side by side. -/

/-- Commands that differ at most in the size of a new cache. -/
inductive Command.Resized (sizes : Int32 → Int32 → Prop) : Command → Command → Prop
  | add {id size size' : Int32} (hsizes : sizes size size') :
      Resized sizes (.ADD_SERVER id size) (.ADD_SERVER id size')
  | remove (id : Int32) : Resized sizes (.REMOVE_SERVER id) (.REMOVE_SERVER id)
  | edit (d c : CString) : Resized sizes (.EDIT d c) (.EDIT d c)
  | get (d : CString) : Resized sizes (.GET d) (.GET d)

/-- Outputs for the same tasks, with their results and the responses related. -/
structure Output.Related (results responses : Response → Response → Prop) (out out' : Output) :
    Prop where
  executed : List.Forall₂ (fun e e' => e.task = e'.task ∧ results e.res e'.res)
    out.executed out'.executed
  response : Option.Rel responses out.response out'.response

/-- A relation between servers that every operation keeps, one between the results of executed
edits and one between the other responses.  A merge may ask for more of the two servers. -/
structure Simulation (sizes : Int32 → Int32 → Prop) (allowed : ServerView → ServerView → Prop)
    (servers : ServerView → ServerView → Prop) (results responses : Response → Response → Prop) :
    Prop where
  id {v w : ServerView} (h : servers v w) : v.id = w.id
  pending {v w : ServerView} (h : servers v w) : v.pending = w.pending
  fresh (id : Int32) {size size' : Int32} (hsizes : sizes size size') :
    servers (fresh id size) (fresh id size')
  edit {v w : ServerView} (h : servers v w) (d c : CString) : servers (v.edit d c) (w.edit d c)
  clear {v w : ServerView} (h : servers v w) :
    servers { v with pending := [] } { w with pending := [] }
  depart {v w : ServerView} (h : servers v w) (goes : CString → Bool) :
    servers (v.without goes) (w.without goes)
  arrive {v w new new' : ServerView} (h : servers v w) (hnew : servers new new')
    (hempty : new.cached = [] ∧ new'.cached = []) (goes : CString → Bool) :
    servers (new.absorb (v.departing goes)) (new'.absorb (w.departing goes))
  merge {v w next next' : ServerView} (h : servers v w) (hnext : servers next next')
    (hallowed : allowed v next) :
    servers (next.absorb v.drained.docs) (next'.absorb w.drained.docs)
  accept {v w : ServerView} (h : servers v w) (r : Request) : servers (v.accept r) (w.accept r)
  get {v w : ServerView} (h : servers v w) (d : CString) : servers (v.get d).1 (w.get d).1
  edited {v w : ServerView} (h : servers v w) (d : CString) :
    results (v.editResponse d) (w.editResponse d)
  acknowledged {v w : ServerView} (h : servers v w) (r : Request) :
    responses (v.acknowledge r) (w.acknowledge r)
  read {v w : ServerView} (h : servers v w) (d : CString) :
    responses (v.get d).2 (w.get d).2

/-- What a merge asks for, when the command is a removal that leaves a server. -/
def Merges (allowed : ServerView → ServerView → Prop) (ring : HashRing) : Command → Prop
  | .REMOVE_SERVER id => 2 ≤ ring.length → ∀ v next, ring[slot ring (hash_uint id)]? = some v →
      ring[removeNextSlot ring id]? = some next → allowed v next
  | _ => True

namespace Simulation

variable {sizes : Int32 → Int32 → Prop} {allowed servers : ServerView → ServerView → Prop}
  {results responses : Response → Response → Prop}

section Step

variable (sim : Simulation sizes allowed servers results responses)

include sim

theorem edits {v w : ServerView} (h : servers v w) (rs : List Request) :
    servers (v.edits rs) (w.edits rs) := by
  induction rs generalizing v w with
  | nil => exact h
  | cons r rs ih => exact ih (sim.edit h _ _)

theorem drained {v w : ServerView} (h : servers v w) : servers v.drained w.drained := by
  unfold ServerView.drained
  rw [sim.pending h]
  exact sim.clear (sim.edits h _)

/-- The tasks that are executed are the same, and their results related. -/
theorem executed {v w : ServerView} (h : servers v w) (rs : List Request) :
    List.Forall₂ (fun e e' : Executed => e.task = e'.task ∧ results e.res e'.res)
      (v.executed rs) (w.executed rs) := by
  induction rs generalizing v w with
  | nil => exact .nil
  | cons r rs ih => exact .cons ⟨rfl, sim.edited h _⟩ (ih (sim.edit h _ _))

theorem executed_pending {v w : ServerView} (h : servers v w) :
    List.Forall₂ (fun e e' : Executed => e.task = e'.task ∧ results e.res e'.res)
      (v.executed v.pending) (w.executed w.pending) := by
  rw [← sim.pending h]
  exact sim.executed h v.pending

theorem positions_eq {ring ring' : HashRing} (h : List.Forall₂ servers ring ring') :
    positions ring = positions ring' := by
  induction h with
  | nil => rfl
  | cons hvw _ ih =>
    unfold positions at ih ⊢
    rw [List.map_cons, List.map_cons, ih, sim.id hvw]

/-- The slots of the two rings are the same. -/
theorem slots_eq {ring ring' : HashRing} (h : List.Forall₂ servers ring ring') (id : Int32) :
    slot ring = slot ring' ∧ addSlot ring id = addSlot ring' id ∧
      addNextSlot ring id = addNextSlot ring' id ∧
      removeNextSlot ring id = removeNextSlot ring' id := by
  have hpositions := sim.positions_eq h
  have hlength := h.length_eq
  have hslot : slot ring = slot ring' := by
    funext hash
    unfold slot
    rw [hpositions]
  have hadd : addSlot ring id = addSlot ring' id := by
    unfold addSlot
    rw [hpositions]
  refine ⟨hslot, hadd, ?_, ?_⟩
  · unfold addNextSlot
    rw [hadd, hlength]
  · unfold removeNextSlot
    rw [hslot, hlength]

theorem goes_eq {ring ring' : HashRing} (h : List.Forall₂ servers ring ring') (id : Int32)
    {next next' : ServerView} (hnext : servers next next') :
    goes ring id next = goes ring' id next' := by
  unfold goes
  rw [(sim.slots_eq h id).2.2.1, sim.id hnext]

theorem afterAdd {ring ring' : HashRing} (h : List.Forall₂ servers ring ring') (id : Int32)
    {size size' : Int32} (hsizes : sizes size size') {next next' : ServerView}
    (hnext : servers next next') (hne : ring ≠ []) :
    List.Forall₂ servers (afterAdd ring id size next) (afterAdd ring' id size' next') := by
  obtain ⟨-, hadd, hnextSlot, -⟩ := sim.slots_eq h id
  have hdrained := sim.drained hnext
  have hset := Parallel.forall₂_set h
    (sim.depart hdrained (goes ring id next)) (addNextSlot ring id)
  -- the new server has nothing in its cache, of whatever size that is
  have hnew := sim.arrive hdrained (sim.fresh id hsizes) ⟨rfl, rfl⟩ (goes ring id next)
  have hle : addSlot ring id ≤ (ring.set (addNextSlot ring id)
      (next.drained.without (goes ring id next))).length := by
    rw [List.length_set]
    exact addSlot_le ring hne id
  unfold HashRing.afterAdd added
  rw [← hadd, ← hnextSlot, ← sim.goes_eq h id hnext]
  exact (Parallel.forall₂_insertIdx_iff hset.length_eq hle).mpr ⟨hnew, hset⟩

theorem afterRemove {ring ring' : HashRing} (h : List.Forall₂ servers ring ring') (id : Int32)
    {v v' next next' : ServerView} (hv : servers v v') (hnext : servers next next')
    (hallowed : allowed v next) :
    List.Forall₂ servers (afterRemove ring id v next) (afterRemove ring' id v' next') := by
  obtain ⟨hslot, -, -, hnextSlot⟩ := sim.slots_eq h id
  unfold HashRing.afterRemove
  rw [← hslot, ← hnextSlot]
  exact Parallel.forall₂_eraseIdx (Parallel.forall₂_set h (sim.merge hv hnext hallowed) _) _

/-- **Steps of related rings for commands that differ in a size** lead to related rings, with
related outputs. -/
theorem step {ring ring' ring₁ ring₁' : HashRing} {command command' : Command} {out out' : Output}
    (h : List.Forall₂ servers ring ring') (hcommand : command.Resized sizes command')
    (hmerges : Merges allowed ring command) (hstep : Step ring command ring₁ out)
    (hstep' : Step ring' command' ring₁' out') :
    List.Forall₂ servers ring₁ ring₁' ∧ out.Related results responses out' := by
  -- the rings are as long as each other, so that both steps are of the same kind
  have hlength := h.length_eq
  cases hcommand with
  | @add id size size' hsizes =>
    cases hstep with
    | addFirst =>
      cases hstep' with
      | addFirst => exact ⟨.cons (sim.fresh id hsizes) .nil, .nil, .none⟩
      | add _ hnext' => exact absurd (List.forall₂_nil_left_iff.mp h) (ne_nil_of_getElem? hnext')
    | add _ hnext =>
      cases hstep' with
      | addFirst => exact absurd (List.forall₂_nil_right_iff.mp h) (ne_nil_of_getElem? hnext)
      | add _ hnext' =>
        rw [← (sim.slots_eq h id).2.2.1] at hnext'
        have hservers := Parallel.forall₂_getElem? h hnext hnext'
        exact ⟨sim.afterAdd h id hsizes hservers (ne_nil_of_getElem? hnext),
          sim.executed_pending hservers, .none⟩
  | remove id =>
    cases hstep with
    | removeOnly =>
      cases hstep' with
      | removeOnly => exact ⟨.nil, .nil, .none⟩
      | remove hlen =>
        rw [← hlength, List.length_singleton] at hlen
        exact absurd hlen (by decide)
    | remove hlen hv hnext =>
      cases hstep' with
      | removeOnly =>
        rw [hlength, List.length_singleton] at hlen
        exact absurd hlen (by decide)
      | remove _ hv' hnext' =>
        obtain ⟨hslot, -, -, hnextSlot⟩ := sim.slots_eq h id
        rw [← hslot] at hv'
        rw [← hnextSlot] at hnext'
        have hservers := Parallel.forall₂_getElem? h hv hv'
        exact ⟨sim.afterRemove h id hservers (Parallel.forall₂_getElem? h hnext hnext')
          (hmerges hlen _ _ hv hnext), sim.executed_pending hservers, .none⟩
  | edit d c =>
    cases hstep with
    | edit hv =>
      cases hstep' with
      | edit hv' =>
        have hroute : route ring d = route ring' d := congrFun (sim.slots_eq h 0).1 _
        rw [← hroute] at hv' ⊢
        have hservers := Parallel.forall₂_getElem? h hv hv'
        exact ⟨Parallel.forall₂_set h (sim.accept hservers _) _, .nil,
          .some (sim.acknowledged hservers _)⟩
  | get d =>
    cases hstep with
    | get hv =>
      cases hstep' with
      | get hv' =>
        have hroute : route ring d = route ring' d := congrFun (sim.slots_eq h 0).1 _
        rw [← hroute] at hv' ⊢
        have hservers := Parallel.forall₂_getElem? h hv hv'
        have hdrained := sim.drained hservers
        exact ⟨Parallel.forall₂_set h (sim.get hdrained d) _, sim.executed_pending hservers,
          .some (sim.read hdrained d)⟩

omit sim in
/-- The ring of the second run can carry the command out when that of the first one can. -/
theorem enabled (hpos : ∀ size size', sizes size size' → 1 ≤ size → 1 ≤ size')
    {ring ring' : HashRing} {command command' : Command} (h : List.Forall₂ servers ring ring')
    (hcommand : command.Resized sizes command') (henabled : Enabled ring command) :
    Enabled ring' command' := by
  have hne : ring ≠ [] → ring' ≠ [] := by
    intro hne hnil
    rw [hnil] at h
    exact hne (List.forall₂_nil_right_iff.mp h)
  cases hcommand with
  | add hsizes => exact hpos _ _ hsizes henabled
  | remove id => exact hne henabled
  | edit d c => exact hne henabled
  | get d => exact hne henabled

/-- **The rule for runs**: when the first run is carried out and its removals are allowed, the
second run is carried out, on related rings and with related outputs. -/
theorem run (hpos : ∀ size size', sizes size size' → 1 ≤ size → 1 ≤ size')
    {admissible : LoadBalancer → Command → Prop}
    (hmerges : ∀ main command, main.WF → admissible main command →
      Merges allowed main.ring command)
    {commands commands' : List Command} {main : LoadBalancer}
    (h : Run.Reaches apply_request init_load_balancer admissible commands main)
    (hcommands : List.Forall₂ (Command.Resized sizes) commands commands') :
    ∃ main' outs outs', apply_requests commands = .ok (main, outs) ∧
      apply_requests commands' = .ok (main', outs') ∧
      List.Forall₂ servers main.ring main'.ring ∧
      List.Forall₂ (Output.Related results responses) outs outs' := by
  have hempty : init_load_balancer.WF := List.forall_mem_nil _
  have hinit : init_load_balancer.WF ∧ init_load_balancer.WF ∧
      List.Forall₂ servers init_load_balancer.ring init_load_balancer.ring :=
    ⟨hempty, hempty, .nil⟩
  have hstep : ∀ (m m' : LoadBalancer) (c c' : Command) (m₁ : LoadBalancer) (o : Output),
      (m.WF ∧ m'.WF ∧ List.Forall₂ servers m.ring m'.ring) → admissible m c →
      c.Resized sizes c' → apply_request m c = .ok (m₁, o) →
      ∃ m₁' o', apply_request m' c' = .ok (m₁', o') ∧
        (m₁.WF ∧ m₁'.WF ∧ List.Forall₂ servers m₁.ring m₁'.ring) ∧
        o.Related results responses o' := by
    intro m m' c c' m₁ o hrel hc hcc happly
    obtain ⟨wf, wf', hrings⟩ := hrel
    obtain ⟨henabled, wf₁, hstep⟩ := step_of_apply_request wf happly
    obtain ⟨m₁', o', happly', wf₁', hstep'⟩ :=
      apply_request_spec wf' (enabled hpos hrings hcc henabled)
    obtain ⟨hrings₁, ho⟩ := sim.step hrings hcc (hmerges m c wf hc) hstep hstep'
    exact ⟨m₁', o', happly', ⟨wf₁, wf₁', hrings₁⟩, ho⟩
  obtain ⟨main', outs, outs', hrun, hrun', hrel, houts⟩ := Run.Reaches.related
    (R := fun (main main' : LoadBalancer) =>
      main.WF ∧ main'.WF ∧ List.Forall₂ servers main.ring main'.ring)
    hinit hstep h hcommands
  exact ⟨main', outs, outs', hrun, hrun', hrel.2.2, houts⟩

end Step

end Simulation

/-! ## §2. Servers that differ in their caches. -/

namespace ServerView

/-- The servers are the same but for their caches. -/
structure SameData (v w : ServerView) : Prop where
  id : v.id = w.id
  docs : v.docs = w.docs
  pending : v.pending = w.pending

variable {v w next next' : ServerView}

theorem SameData.edit (h : SameData v w) (d c : CString) : SameData (v.edit d c) (w.edit d c) :=
  ⟨h.id, congrArg (fun docs : CString → Option CString => Function.update docs d (some c)) h.docs,
    h.pending⟩

theorem SameData.without (h : SameData v w) (goes : CString → Bool) :
    SameData (v.without goes) (w.without goes) :=
  ⟨h.id, congrArg (fun docs d => if goes d then none else docs d) h.docs, h.pending⟩

theorem SameData.absorb (h : SameData next next') {docs docs' : CString → Option CString}
    (hdocs : docs = docs') : SameData (next.absorb docs) (next'.absorb docs') :=
  ⟨h.id, congrArg₂ (fun docs before d => (docs d).or (before d)) hdocs h.docs, h.pending⟩

theorem SameData.departing (h : SameData v w) (goes : CString → Bool) :
    v.departing goes = w.departing goes := by
  unfold ServerView.departing
  rw [h.docs]

/-- The contents once the queue is executed do not depend on the cache. -/
theorem SameData.drained_docs (h : SameData v w) : v.drained.docs = w.drained.docs := by
  funext d
  show v.latest d = w.latest d
  rw [latest_eq, latest_eq, h.docs, h.pending]

theorem SameData.accept (h : SameData v w) (r : Request) :
    SameData (v.accept r) (w.accept r) := by
  unfold ServerView.accept
  rw [h.pending]
  split_ifs
  · exact ⟨h.id, h.docs, congrArg (· ++ [r]) h.pending⟩
  · exact h

theorem SameData.get (h : SameData v w) (d : CString) : SameData (v.get d).1 (w.get d).1 := by
  refine ⟨?_, ?_, ?_⟩
  · rw [id_get, id_get, h.id]
  · rw [docs_get, docs_get, h.docs]
  · rw [pending_get, pending_get, h.pending]

/-- An edit that arrives is answered alike. -/
theorem SameData.acknowledge_eq (h : SameData v w) (r : Request) :
    v.acknowledge r = w.acknowledge r := by
  unfold ServerView.acknowledge
  rw [(h.accept r).pending, h.id]

/-! ### The log lines of hits. -/

/-- The letter in which hits and misses differ. -/
theorem getElem?_logs (d victim : CString) :
    (LOG_HIT d).bytes[6]? = some 72 ∧ (LOG_MISS d).bytes[6]? = some 77 ∧
      (LOG_EVICT d victim).bytes[6]? = some 77 := by
  have hhit : (CString.ofString "Cache HIT for ").bytes[6]? = some 72 := by decide +kernel
  have hmiss : (CString.ofString "Cache MISS for ").bytes[6]? = some 77 := by decide +kernel
  have happend : ∀ {s : CString} {b : UInt8}, s.bytes[6]? = some b → ∀ t : CString,
      (s ++ t).bytes[6]? = some b := by
    intro s b h t
    rw [CString.bytes_append, List.getElem?_append_left (List.getElem?_eq_some_iff.mp h).1, h]
  exact ⟨happend hhit d, happend hmiss d, happend (happend (happend (happend hmiss _) _) _) _⟩

/-- A hit is logged exactly when the document is cached. -/
theorem log_eq_hit_iff (v : ServerView) (d : CString) :
    (∃ d', v.log d = LOG_HIT d') ↔ d ∈ v.cachedNames := by
  unfold ServerView.log cachedNames
  constructor
  · intro h
    obtain ⟨d', h⟩ := h
    by_contra hd
    have hbyte := (getElem?_logs d' d').1
    cases hout : Recency.outcome v.capacity v.cached d with
    | hit => exact hd (Recency.outcome_eq_hit_iff.mp hout)
    | miss =>
      rw [hout] at h
      rw [← h, (getElem?_logs d d).2.1] at hbyte
      exact absurd hbyte (by decide)
    | evict victim =>
      rw [hout] at h
      rw [← h, (getElem?_logs d victim).2.2] at hbyte
      exact absurd hbyte (by decide)
  · intro hd
    rw [Recency.outcome_of_mem hd]
    exact ⟨d, rfl⟩

theorem log_of_mem {d : CString} (hd : d ∈ v.cachedNames) : v.log d = LOG_HIT d := by
  unfold ServerView.log
  rw [Recency.outcome_of_mem hd]

/-! ## §3. Larger caches. -/

/-- The same server with a larger cache, whose most recent names are those of the smaller one; what
is cached is stored. -/
structure CacheWithin (v w : ServerView) : Prop extends SameData v w where
  capacity : v.capacity ≤ w.capacity
  cached : v.cachedNames <:+ w.cachedNames
  stored : ∀ d ∈ w.cachedNames, w.Stores d

theorem CacheWithin.stores (h : CacheWithin v w) {d : CString} (hd : d ∈ v.cachedNames) :
    v.Stores d := by
  unfold Stores
  rw [h.docs]
  exact h.stored d (h.cached.subset hd)

/-- The names in a cache after a write are the one written and some of those before. -/
theorem mem_cachedNames_put {d c d' : CString}
    (hd' : d' ∈ Recency.keys (Recency.put v.capacity v.cached d c)) :
    d' = d ∨ d' ∈ v.cachedNames := by
  obtain ⟨e, he, rfl⟩ := List.mem_map.mp hd'
  rcases Recency.mem_put he with rfl | ⟨he, -⟩
  · exact .inl rfl
  · exact .inr (List.mem_map_of_mem he)

theorem CacheWithin.edit (h : CacheWithin v w) (d c : CString) :
    CacheWithin (v.edit d c) (w.edit d c) where
  toSameData := h.toSameData.edit d c
  capacity := h.capacity
  cached := Recency.keys_put_suffix h.capacity h.cached d c c
  stored := by
    intro d' hd'
    show (Function.update w.docs d (some c) d').isSome
    rw [Function.update_apply]
    split_ifs with heq
    · rfl
    · exact h.stored d' ((mem_cachedNames_put hd').resolve_left heq)

theorem CacheWithin.touch (h : CacheWithin v w) {d : CString} (hd : w.Stores d) (c c' : CString) :
    CacheWithin (v.touch d c) (w.touch d c') where
  toSameData := ⟨h.id, h.docs, h.pending⟩
  capacity := h.capacity
  cached := Recency.keys_put_suffix h.capacity h.cached d c c'
  stored := by
    intro d' hd'
    rcases mem_cachedNames_put hd' with rfl | hd'
    · exact hd
    · exact h.stored d' hd'

theorem keys_filter {κ ν : Type} (l : List (κ × ν)) (p : κ → Bool) :
    Recency.keys (l.filter fun e => p e.1) = (Recency.keys l).filter p :=
  (List.filter_map ..).symm

theorem CacheWithin.without (h : CacheWithin v w) (goes : CString → Bool) :
    CacheWithin (v.without goes) (w.without goes) where
  toSameData := h.toSameData.without goes
  capacity := h.capacity
  cached := by
    show Recency.keys (v.cached.filter fun e => (v.departing goes e.1).isNone) <:+
      Recency.keys (w.cached.filter fun e => (w.departing goes e.1).isNone)
    rw [keys_filter _ fun d => (v.departing goes d).isNone,
      keys_filter _ fun d => (w.departing goes d).isNone, h.toSameData.departing]
    exact h.cached.filter _
  stored := by
    intro d hd
    -- what stays in the cache does not depart, and was stored
    rw [cachedNames, show (w.without goes).cached =
      w.cached.filter fun e => (w.departing goes e.1).isNone from rfl,
      keys_filter _ fun d => (w.departing goes d).isNone] at hd
    obtain ⟨hmem, hstays⟩ := List.mem_filter.mp hd
    have hstored := h.stored d hmem
    show (if goes d then none else w.docs d).isSome
    unfold departing at hstays
    unfold Stores at hstored
    split_ifs at hstays ⊢
    · rw [Option.isNone_iff_eq_none.mp hstays] at hstored
      cases hstored
    · exact hstored

theorem CacheWithin.absorb (h : CacheWithin next next') {docs docs' : CString → Option CString}
    (hdocs : docs = docs') : CacheWithin (next.absorb docs) (next'.absorb docs') where
  toSameData := h.toSameData.absorb hdocs
  capacity := h.capacity
  cached := h.cached
  stored := by
    intro d hd
    show ((docs' d).or (next'.docs d)).isSome
    rw [Option.isSome_or, h.stored d hd, Bool.or_true]

theorem CacheWithin.accept (h : CacheWithin v w) (r : Request) :
    CacheWithin (v.accept r) (w.accept r) := by
  have hdata := h.toSameData.accept r
  unfold ServerView.accept at hdata ⊢
  rw [h.pending] at hdata ⊢
  split_ifs at hdata ⊢
  · exact ⟨hdata, h.capacity, h.cached, h.stored⟩
  · exact h

/-- A document that is stored is read, from the cache or from the database. -/
theorem get_of_stores {d : CString} (hd : v.Stores d) :
    ∃ c, v.get d = (v.touch d c,
      { server_log := v.log d, server_response := some c, server_id := v.id }) := by
  obtain ⟨c, hc⟩ := Option.isSome_iff_exists.mp hd
  unfold ServerView.get
  cases hcached : v.cachedContent d with
  | some c' => exact ⟨c', rfl⟩
  | none => exact ⟨c, by rw [hc]; rfl⟩

/-- A document that is neither stored nor cached is reported as missing. -/
theorem get_of_not_stores {d : CString} (hd : ¬ v.Stores d) (hcached : d ∉ v.cachedNames) :
    v.get d = (v, { server_log := LOG_FAULT d, server_response := none, server_id := v.id }) := by
  have hnone : v.cachedContent d = none := by
    unfold cachedContent
    rw [KeyedList.find_eq_none.mpr hcached]
    rfl
  unfold ServerView.get
  rw [hnone, Option.not_isSome_iff_eq_none.mp hd]
  rfl

end ServerView

/-- The responses come from the same server and find a document alike, and a hit stays one. -/
structure Response.KeepsHit (res res' : Response) : Prop where
  server_id : res.server_id = res'.server_id
  found : res.server_response.isSome = res'.server_response.isSome
  hit : ∀ d, res.server_log = LOG_HIT d → res'.server_log = LOG_HIT d

/-- So it is for executed edits, which are answered in the same words. -/
structure Response.KeepsHitAndMessage (res res' : Response) : Prop extends
    Response.KeepsHit res res' where
  message : res.server_response = res'.server_response

/-- So it is for reads and for the acknowledgements of edits, which log the size of the queue and
are the same. -/
structure Response.KeepsHitAndAcknowledgement (res res' : Response) : Prop extends
    Response.KeepsHit res res' where
  acknowledgement : ∀ size, res.server_log = LOG_LAZY_EXEC size → res = res'

open ServerView

theorem Response.keepsHit_refl (res : Response) : res.KeepsHit res := ⟨rfl, rfl, fun _ h => h⟩

/-- The smaller cache logs a hit only where the larger one does. -/
theorem ServerView.CacheWithin.log_hit {v w : ServerView} (h : CacheWithin v w) (d : CString) :
    ∀ d', v.log d = LOG_HIT d' → w.log d = LOG_HIT d' := by
  intro d' hlog
  have hd := (log_eq_hit_iff v d).mp ⟨d', hlog⟩
  rw [← hlog, log_of_mem hd, log_of_mem (h.cached.subset hd)]

/-- The message of an executed edit does not depend on the cache when what is cached is stored. -/
theorem editResponse_eq {v : ServerView} {d : CString} (h : d ∈ v.cachedNames → v.Stores d) :
    v.editResponse d = { server_log := v.log d
                         server_response := some (if (v.docs d).isSome then MSG_B d else MSG_C d)
                         server_id := v.id } := by
  have hcond : (d ∈ v.cachedNames ∨ (v.docs d).isSome = true) ↔ (v.docs d).isSome = true :=
    or_iff_right_of_imp h
  unfold editResponse
  rw [if_congr hcond rfl rfl]

/-- A read touches the document on both servers, or finds it on none of them. -/
theorem ServerView.CacheWithin.get_cases {v w : ServerView} (h : CacheWithin v w) (d : CString) :
    (w.Stores d ∧ ∃ c c',
      v.get d = (v.touch d c,
        { server_log := v.log d, server_response := some c, server_id := v.id }) ∧
      w.get d = (w.touch d c',
        { server_log := w.log d, server_response := some c', server_id := w.id })) ∨
    (v.get d = (v, { server_log := LOG_FAULT d, server_response := none, server_id := v.id }) ∧
      w.get d = (w,
        { server_log := LOG_FAULT d, server_response := none, server_id := w.id })) := by
  have hstores : v.Stores d ↔ w.Stores d := by
    unfold Stores
    rw [h.docs]
  by_cases hd : w.Stores d
  · obtain ⟨c, hget⟩ := get_of_stores (hstores.mpr hd)
    obtain ⟨c', hget'⟩ := get_of_stores hd
    exact .inl ⟨hd, c, c', hget, hget'⟩
  · have hd' := mt hstores.mp hd
    exact .inr ⟨get_of_not_stores hd' fun hmem => hd' (h.stores hmem),
      get_of_not_stores hd fun hmem => hd (h.stored d hmem)⟩

/-- Caches that are not made smaller. -/
def Enlarged (size size' : Int32) : Prop := 1 ≤ size ∧ size ≤ size'

theorem Enlarged.capacity_le {size size' : Int32} (h : Enlarged size size') :
    size.toUInt32.toNat ≤ size'.toUInt32.toNat := by
  have hle := Int32.le_iff_toInt_le.mp h.2
  rw [← toNat_toUInt32 h.1, ← toNat_toUInt32 (Int32.le_trans h.1 h.2)] at hle
  omega

/-- **Every operation keeps a larger cache around a smaller one.** -/
theorem cache_within_simulation : Simulation Enlarged (fun _ _ => True) CacheWithin
    Response.KeepsHitAndMessage Response.KeepsHitAndAcknowledgement where
  id h := h.id
  pending h := h.pending
  fresh id _ _ hsizes :=
    ⟨⟨rfl, rfl, rfl⟩, hsizes.capacity_le, List.suffix_rfl, fun _ h => by cases h⟩
  edit h d c := h.edit d c
  clear h := ⟨⟨h.id, h.docs, rfl⟩, h.capacity, h.cached, h.stored⟩
  depart h goes := h.without goes
  arrive h hnew _ goes := hnew.absorb (h.toSameData.departing goes)
  merge h hnext _ := hnext.absorb h.toSameData.drained_docs
  accept h r := h.accept r
  get := by
    -- a read that finds something touches the same name on both
    intro v w h d
    rcases h.get_cases d with ⟨hd, c, c', hget, hget'⟩ | ⟨hget, hget'⟩
    · rw [hget, hget']
      exact h.touch hd c c'
    · rw [hget, hget']
      exact h
  edited := by
    intro v w h d
    rw [editResponse_eq (h.stored d), editResponse_eq h.stores, h.docs, h.id]
    exact ⟨⟨rfl, rfl, h.log_hit d⟩, rfl⟩
  acknowledged := by
    intro v w h r
    rw [h.toSameData.acknowledge_eq r]
    exact ⟨Response.keepsHit_refl _, fun _ _ => rfl⟩
  read := by
    intro v w h d
    rcases h.get_cases d with ⟨-, c, c', hget, hget'⟩ | ⟨hget, hget'⟩
    · rw [hget, hget']
      exact ⟨⟨h.id, rfl, h.log_hit d⟩, fun size hlog => absurd hlog (v.log_ne_lazy_exec d size)⟩
    · -- both report the missing document
      rw [hget, hget', h.id]
      exact ⟨Response.keepsHit_refl _, fun _ _ => rfl⟩

/-- **Larger caches keep every hit.**  When servers are added with larger caches, the same commands
are carried out, each server stores, has pending and executes the same, its larger cache ends in the
names of the smaller one, executed edits are answered with the same messages, edits are acknowledged
by the same responses, and no access that was a hit becomes a miss. -/
theorem larger_caches_keep_hits {commands commands' : List Command} {main : LoadBalancer}
    (h : Reachable commands main)
    (hsizes : List.Forall₂ (Command.Resized Enlarged) commands commands') :
    ∃ main' outs outs', apply_requests commands = .ok (main, outs) ∧
      apply_requests commands' = .ok (main', outs') ∧
      List.Forall₂ CacheWithin main.ring main'.ring ∧
      List.Forall₂ (Output.Related Response.KeepsHitAndMessage
        Response.KeepsHitAndAcknowledgement) outs outs' := by
  have hpos : ∀ size size', Enlarged size size' → 1 ≤ size → 1 ≤ size' :=
    fun size size' h _ => Int32.le_trans h.1 h.2
  refine cache_within_simulation.run hpos ?_ h hsizes
  intro main command _ _
  cases command with
  | REMOVE_SERVER id => exact fun _ _ _ _ _ => trivial
  | ADD_SERVER id size => trivial
  | EDIT d c => trivial
  | GET d => trivial

/-- A cache of one document and one of three. -/
theorem larger_caches_keep_hits_two_documents :
    ∃ main main' outs outs', apply_requests [.ADD_SERVER 1 1, .EDIT (.ofString "a") (.ofString "x"),
        .EDIT (.ofString "b") (.ofString "y"), .GET (.ofString "a")] = .ok (main, outs) ∧
      apply_requests [.ADD_SERVER 1 3, .EDIT (.ofString "a") (.ofString "x"),
        .EDIT (.ofString "b") (.ofString "y"), .GET (.ofString "a")] = .ok (main', outs') ∧
      List.Forall₂ CacheWithin main.ring main'.ring ∧
      List.Forall₂ (Output.Related Response.KeepsHitAndMessage
        Response.KeepsHitAndAcknowledgement) outs outs' := by
  obtain ⟨main, hreach, -⟩ := exists_reachable [.ADD_SERVER 1 1,
    .EDIT (.ofString "a") (.ofString "x"), .EDIT (.ofString "b") (.ofString "y"),
    .GET (.ofString "a")] (fun _ => true) (by decide +kernel)
  obtain ⟨main', outs, outs', h⟩ := larger_caches_keep_hits hreach
    (.cons (.add ⟨by decide, show (1 : Int32) ≤ 3 by decide⟩) (.cons (.edit _ _)
      (.cons (.edit _ _) (.cons (.get _) .nil))))
  exact ⟨main, main', outs, outs', h⟩

/-! ## §4. Caches of any size. -/

/-- The servers are the same but for their caches, and the caches agree with the databases. -/
structure ServerView.SameAnswers (v w : ServerView) : Prop extends SameData v w where
  left : v.Coherent
  right : w.Coherent

/-- The responses have the same message and come from the same server. -/
structure Response.SameMessage (res res' : Response) : Prop where
  server_id : res.server_id = res'.server_id
  message : res.server_response = res'.server_response

/-- What the removed server brings agrees with what the next one stores. -/
def MergeAgrees (v next : ServerView) : Prop :=
  ∀ d, v.latest d = none ∨ next.docs d = none ∨ v.latest d = next.docs d

theorem Coherent.absorb_drained {v next : ServerView} (h : next.Coherent)
    (hagrees : MergeAgrees v next) : (next.absorb v.drained.docs).Coherent := by
  apply (h.absorb_iff _).mpr
  intro e he c hc
  have hstored := h e he
  have hlatest : v.latest e.1 = some c := hc
  rcases hagrees e.1 with hnone | hnone | heq
  · rw [hlatest] at hnone
    cases hnone
  · rw [hstored] at hnone
    cases hnone
  · rw [hlatest, hstored] at heq
    exact Option.some.inj heq

theorem ServerView.SameAnswers.get_eq {v w : ServerView} (h : SameAnswers v w) (d : CString) :
    (v.get d).2.SameMessage (w.get d).2 := by
  refine ⟨?_, ?_⟩
  · unfold ServerView.get
    split <;> split <;> exact h.id
  · rw [(h.left.get d).2, (h.right.get d).2, h.docs]

/-- **Every operation keeps the answers the same**, a merge when the two servers agree. -/
theorem same_answers_simulation : Simulation (fun _ size' => 1 ≤ size') MergeAgrees SameAnswers
    Response.SameMessage Response.SameMessage where
  id h := h.id
  pending h := h.pending
  fresh id _ _ _ := ⟨⟨rfl, rfl, rfl⟩, fun _ h => (List.not_mem_nil h).elim,
    fun _ h => (List.not_mem_nil h).elim⟩
  edit h d c := ⟨h.toSameData.edit d c, h.left.edit d c, h.right.edit d c⟩
  clear h := ⟨⟨h.id, h.docs, rfl⟩, h.left, h.right⟩
  depart h goes := ⟨h.toSameData.without goes, h.left.without goes, h.right.without goes⟩
  arrive := by
    -- a server that comes has an empty cache, with which any database agrees
    intro v w new new' h hnew hempty goes
    refine ⟨hnew.toSameData.absorb (h.toSameData.departing goes), ?_, ?_⟩
    · intro e he
      rw [show (new.absorb (v.departing goes)).cached = [] from hempty.1] at he
      cases he
    · intro e he
      rw [show (new'.absorb (w.departing goes)).cached = [] from hempty.2] at he
      cases he
  merge := by
    intro v w next next' h hnext hagrees
    -- agreement is a matter of the databases and the queues, which are the same
    have hagrees' : MergeAgrees w next' := by
      intro d
      have hd := hagrees d
      rw [latest_eq, h.docs, h.pending, ← latest_eq, hnext.docs] at hd
      exact hd
    exact ⟨hnext.toSameData.absorb h.toSameData.drained_docs,
      Coherent.absorb_drained hnext.left hagrees, Coherent.absorb_drained hnext.right hagrees'⟩
  accept := by
    intro v w h r
    have hleft : (v.accept r).Coherent := by
      unfold ServerView.accept
      split_ifs <;> exact h.left
    have hright : (w.accept r).Coherent := by
      unfold ServerView.accept
      split_ifs <;> exact h.right
    exact ⟨h.toSameData.accept r, hleft, hright⟩
  get h d := ⟨h.toSameData.get d, (h.left.get d).1, (h.right.get d).1⟩
  edited := by
    intro v w h d
    rw [editResponse_eq fun hd => h.left.isSome_of_mem hd,
      editResponse_eq fun hd => h.right.isSome_of_mem hd, h.docs, h.id]
    exact ⟨rfl, rfl⟩
  acknowledged := by
    intro v w h r
    rw [h.toSameData.acknowledge_eq r]
    exact ⟨rfl, rfl⟩
  read h d := h.get_eq d

/-- What the server to be removed has and the next one stores is the same on both; the removal of
the only server merges nothing. -/
def SharedAgree (main : LoadBalancer) : Command → Prop
  | .REMOVE_SERVER server_id => 2 ≤ main.servers.length →
    ∀ s ∈ main.servers[get_server main (hash_uint server_id)]?,
      ∀ next_s ∈ main.servers[(get_server main (hash_uint server_id) + 1) % main.servers.length]?,
        ∀ e ∈ next_s.db.entries, s.newest e.key = none ∨ s.newest e.key = some e.value
  | _ => True

instance (main : LoadBalancer) : DecidablePred (SharedAgree main)
  | .REMOVE_SERVER _ => inferInstanceAs (Decidable (_ → _))
  | .ADD_SERVER _ _ => inferInstanceAs (Decidable True)
  | .EDIT _ _ => inferInstanceAs (Decidable True)
  | .GET _ => inferInstanceAs (Decidable True)

theorem merges_of_sharedAgree {main : LoadBalancer} (wf : main.WF) {command : Command}
    (h : SharedAgree main command) : Merges MergeAgrees main.ring command := by
  cases command with
  | REMOVE_SERVER id =>
    intro hlen v next hv hnext d
    obtain ⟨s, hs, rfl⟩ := LoadBalancer.exists_server_of_ring hv
    obtain ⟨next_s, hnext_s, rfl⟩ := LoadBalancer.exists_server_of_ring hnext
    rw [← LoadBalancer.removeNextSlot_eq] at hnext_s
    rw [← get_server_eq] at hs
    cases hdoc : next_s.view.docs d with
    | none => exact .inr (.inl rfl)
    | some c =>
      have hmem := (mem_entries_iff (wf.of_getElem? hnext_s).db ⟨d, c⟩).mpr hdoc
      have hagrees := h (main.length_ring ▸ hlen) s hs next_s hnext_s ⟨d, c⟩ hmem
      rw [Server.newest_eq] at hagrees
      exact hagrees.imp_right .inr
  | ADD_SERVER id size => trivial
  | EDIT d c => trivial
  | GET d => trivial

/-- **The sizes of the caches do not show.**  In a run whose removals merge databases that agree,
the same commands with caches of any other sizes are carried out, each server stores and has pending
the same, and every response has the same message from the same server. -/
theorem cache_sizes_do_not_show {commands commands' : List Command} {main : LoadBalancer}
    (h : Run.Reaches apply_request init_load_balancer
      (fun main command => Enabled main.ring command ∧ SharedAgree main command) commands main)
    (hsizes : List.Forall₂ (Command.Resized fun _ size' => 1 ≤ size') commands commands') :
    ∃ main' outs outs', apply_requests commands = .ok (main, outs) ∧
      apply_requests commands' = .ok (main', outs') ∧
      List.Forall₂ SameAnswers main.ring main'.ring ∧
      List.Forall₂ (Output.Related Response.SameMessage Response.SameMessage) outs outs' :=
  same_answers_simulation.run (fun _ _ h _ => h)
    (fun _ _ wf hc => merges_of_sharedAgree wf hc.2) h hsizes

/-- Two servers, one of which is removed again, with a large cache in the place of a small one and a
small one in the place of a large one. -/
theorem cache_sizes_do_not_show_two_servers :
    ∃ main main' outs outs', apply_requests [.ADD_SERVER 1 1, .EDIT (.ofString "a") (.ofString "x"),
        .ADD_SERVER 2 5, .GET (.ofString "a"), .REMOVE_SERVER 2, .GET (.ofString "a")] =
          .ok (main, outs) ∧
      apply_requests [.ADD_SERVER 1 7, .EDIT (.ofString "a") (.ofString "x"), .ADD_SERVER 2 2,
        .GET (.ofString "a"), .REMOVE_SERVER 2, .GET (.ofString "a")] = .ok (main', outs') ∧
      List.Forall₂ SameAnswers main.ring main'.ring ∧
      List.Forall₂ (Output.Related Response.SameMessage Response.SameMessage) outs outs' := by
  obtain ⟨main, hreaches, -⟩ := exists_reaches [.ADD_SERVER 1 1,
    .EDIT (.ofString "a") (.ofString "x"), .ADD_SERVER 2 5, .GET (.ofString "a"), .REMOVE_SERVER 2,
    .GET (.ofString "a")]
    (fun main command => decide (Legal main command ∧ SharedAgree main command))
    (fun _ => true)
    (fun _ _ _ h => (of_decide_eq_true h).imp_left Legal.enabled) (by decide +kernel)
  obtain ⟨main', outs, outs', h⟩ := cache_sizes_do_not_show hreaches
    (.cons (.add (show (1 : Int32) ≤ 7 by decide)) (.cons (.edit _ _)
      (.cons (.add (show (1 : Int32) ≤ 2 by decide)) (.cons (.get _) (.cons (.remove _)
        (.cons (.get _) .nil))))))
  exact ⟨main, main', outs, outs', h⟩

end DistDb
