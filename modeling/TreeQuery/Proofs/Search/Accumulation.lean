import TreeQuery.Proofs.Search.DocumentOrder

/-!
# What a walk adds to its trail

The branches of a walk all record on one trail, and a failure that a wildcard catches takes nothing back.
It does not have to: a walk that fails has left its trail as it was. Any other walk adds matches to the
trail that depend neither on what is there already nor on what else will come, and each of them is as many
steps below the start of the walk as there are segments left.
-/

namespace TreeQuery

namespace Reading

variable {r : Reading} {s : Store} {o : Options}

/-- Objects and arrays are what has children. -/
theorem isSome_children? (r : Reading) (s : Store) (n : Node) :
    (r.children? s n).isSome = (r.access.isObject s n || r.access.isArray s n) := by
  rw [access_isObject, access_isArray, children?]
  cases r.members? s n <;> simp

/-- A match lies as many steps below the place of a node as segments lead to it. -/
theorem length_under_of_mem_found {segments : List Segment} {n : Node} {m : Match}
    (hm : m ∈ r.found s o segments n) (place : Location) :
    (m.under place).location.length = place.length + segments.length := by
  have length : m.location.steps.length = segments.length := (mem_found_iff.1 hm).length_eq
  rw [← length]
  exact List.length_append

end Reading

end TreeQuery
