/-
  DistDb.Rebalancing — which documents change servers when servers come and go.

  Consistent hashing is there to move few documents.  Two states of the load balancer are compared,
  however they were reached: no run between them is assumed, and the additions and removals that
  led to them may have come in any order.

  Main results:
    * `serving_position_eq` — when the servers of a hash in the two states are servers of both, they
      are the same,
    * `ids_eq_of_perm` — the ids alone decide the order of the ring,
    * `routing_is_consistent` — both, for all states that are reached.
-/
import DistDb.Routing

namespace DistDb

open Lib HashRing

/-! ## §1. Two rings in order. -/

namespace LoadBalancer

/-- The ids of the servers, in the order of the ring. -/
def ids (main : LoadBalancer) : List Int32 := main.servers.map Server.id

variable {main main' : LoadBalancer}

theorem positions_eq_map_ids (main : LoadBalancer) :
    positions main.ring = main.ids.map hash_uint := by
  rw [main.positions_ring, ids, List.map_map]
  rfl

/-- **The first server met is the same one**, when each ring has the other's. -/
theorem serving_position_eq (asc : Ascending main.ring) (asc' : Ascending main'.ring)
    {hash : UInt32} {s s' : Server} (hs : main.servers[get_server main hash]? = some s)
    (hs' : main'.servers[get_server main' hash]? = some s') (hkept : s.id ∈ main'.ids)
    (hold : s'.id ∈ main.ids) : s.id = s'.id := by
  have hp := getElem?_positions hs
  have hp' := getElem?_positions hs'
  have hne : positions main.ring ≠ [] := List.ne_nil_of_mem (List.mem_of_getElem? hp)
  have hne' : positions main'.ring ≠ [] := List.ne_nil_of_mem (List.mem_of_getElem? hp')
  have hmem : hash_uint s.id ∈ positions main'.ring := by
    rw [positions_eq_map_ids]
    exact List.mem_map_of_mem hkept
  have hmem' : hash_uint s'.id ∈ positions main.ring := by
    rw [positions_eq_map_ids]
    exact List.mem_map_of_mem hold
  rw [get_server_eq] at hp hp'
  have hposition := (SuccessorRing.serves_slotOf _ hash hne).eq_of_mem asc asc'
    (SuccessorRing.serves_slotOf _ hash hne') hp hp' hmem hmem'
  exact hash_uint_injective hposition

/-- **The order of the ring is a matter of the ids alone.** -/
theorem ids_eq_of_perm (asc : Ascending main.ring) (asc' : Ascending main'.ring)
    (hperm : main.ids.Perm main'.ids) : main.ids = main'.ids := by
  rw [Ascending, positions_eq_map_ids] at asc asc'
  have hpositions : main.ids.map hash_uint = main'.ids.map hash_uint :=
    (hperm.map hash_uint).eq_of_pairwise (fun _ _ _ _ hle hge => le_antisymm hle hge) asc asc'
  exact List.map_injective_iff.mpr hash_uint_injective hpositions

theorem get_server_eq_of_ids (h : main.ids = main'.ids) : get_server main = get_server main' := by
  funext hash
  rw [get_server_eq, get_server_eq, slot, slot, positions_eq_map_ids, positions_eq_map_ids, h]

end LoadBalancer

/-! ## §2. All states that are reached. -/

/-- **Routing is consistent.**  In any two states that are reached, a hash that changes servers
leaves one that is gone or goes to one that is new; and when the servers are the same, in whatever
order they came, they stand in the same order and `get_server` finds the same slots. -/
theorem routing_is_consistent {commands commands' : List Command} {main main' : LoadBalancer}
    (h : Reachable commands main) (h' : Reachable commands' main') :
    (∀ hash s s', main.servers[get_server main hash]? = some s →
      main'.servers[get_server main' hash]? = some s' → s.id ≠ s'.id →
      s.id ∉ main'.ids ∨ s'.id ∉ main.ids) ∧
    (main.ids.Perm main'.ids → main.ids = main'.ids ∧ get_server main = get_server main') := by
  obtain ⟨-, asc, -⟩ := reached_invariant h
  obtain ⟨-, asc', -⟩ := reached_invariant h'
  refine ⟨?_, ?_⟩
  · intro hash s s' hs hs' hchanged
    by_contra hshared
    obtain ⟨hkept, hold⟩ := not_or.mp hshared
    exact hchanged (LoadBalancer.serving_position_eq asc asc' hs hs' (not_not.mp hkept)
      (not_not.mp hold))
  · intro hperm
    have hids := LoadBalancer.ids_eq_of_perm asc asc' hperm
    exact ⟨hids, LoadBalancer.get_server_eq_of_ids hids⟩

/-- Three servers that came in two orders, one of them after a fourth one that is gone. -/
theorem routing_is_consistent_three_servers :
    ∃ main main', Reachable [.ADD_SERVER 1 1, .ADD_SERVER 2 1, .ADD_SERVER 3 1] main ∧
      Reachable [.ADD_SERVER 3 2, .ADD_SERVER 4 2, .ADD_SERVER 1 2, .REMOVE_SERVER 4,
        .ADD_SERVER 2 2] main' ∧
      main.ids = main'.ids ∧ get_server main = get_server main' := by
  obtain ⟨main, h, hids⟩ := exists_reachable [.ADD_SERVER 1 1, .ADD_SERVER 2 1, .ADD_SERVER 3 1]
    (fun main => decide (main.ids.Perm [1, 2, 3])) (by decide +kernel)
  obtain ⟨main', h', hids'⟩ := exists_reachable [.ADD_SERVER 3 2, .ADD_SERVER 4 2, .ADD_SERVER 1 2,
    .REMOVE_SERVER 4, .ADD_SERVER 2 2] (fun main => decide (main.ids.Perm [1, 2, 3]))
    (by decide +kernel)
  have hperm := (of_decide_eq_true hids).trans (of_decide_eq_true hids').symm
  exact ⟨main, main', h, h', (routing_is_consistent h h').2 hperm⟩

end DistDb
