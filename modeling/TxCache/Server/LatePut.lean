import TxCache.Server.Put

/-!
# Late puts: the buffered route against the direct route

An invalidation at pin `ts` reaches a still-valid entry by one of two routes, depending on whether
the entry was put before or after the invalidation arrived:

* **directly**, when the entry is already stored: `Store_InvalidateTag` finds it through the
  invalidation index and truncates it at `ts`, so that its interval becomes `[lower, max upper ts)`
  and is no longer still valid;
* **through the buffer**, when the put arrives after the invalidation with an upper bound
  `upper ≤ ts`: `Store_TruncateIfAlreadyInvalidated` looks for buffered invalidations from the key
  `(upper, NULL)` on, and ends the interval at the first one matching a tag of the put.

The two routes should leave the same interval. They do not, in two ways.

* The buffer comparator orders a search key without a tag above every buffered invalidation of the
  same pin, so the search from `(upper, NULL)` starts at the first pin *strictly* after `upper`.
  An invalidation at exactly `ts = upper` is skipped, although the direct route truncates at it:
  `upper` is the first pin at which the value may have changed.
* The buffer holds one invalidation per pin and tag, and a second insertion of the same pin and
  tag is dropped as a duplicate. When one invalidation first invalidates a tag exactly, as the
  ancestor of a longer tag, and then with its descendants, only the exact one is buffered, and a
  late put of a descendant is not truncated.

`Sound` below is what the store is meant to maintain for a ground-truth history of values: every
live entry holds its key's value throughout its interval. A run of three operations that meets the
assumptions of a sound history ends with an entry that claims its data at a pin where the value had
already changed.
-/

namespace TxCache

/-- A store operation, as the server's request handlers call them. -/
inductive StoreOp
  | put (key : List UInt8) (interval : Interval) (data : List UInt8) (tags : List (List Char))
      (force : Bool) (time : ℤ)
  | invalidate (ts : ℕ) (tags : List (List Char)) (time : ℤ)
  | lookup (key : List UInt8) (interval : Interval) (earliestPin : ℕ)
      (policy : Store.StoreLookupPolicyId)
  | removeUseless (time : ℤ)
  | evict (toFree : ℕ)

namespace Store

/-- One operation; `none` when it panics. -/
def step (st : Store) : StoreOp → Option Store
  | .put key interval data tags force time => some (st.put key interval data tags force time).1
  | .invalidate ts tags time => st.invalidate ts tags time
  | .lookup key interval earliestPin policy => some (st.lookup key interval earliestPin policy).1
  | .removeUseless time => some (st.removeUseless time)
  | .evict toFree => some (st.evict toFree).1

/-- A run of operations. -/
def run (st : Store) (ops : List StoreOp) : Option Store := ops.foldlM step st

/-- The intervals of the entries of a key, in version-set order. -/
def intervalsOf (st : Store) (key : List UInt8) : List Interval :=
  ((st.vset key).getD []).map (·.interval)

end Store

/-- A ground-truth history: the value of every key at every pin. -/
abbrev History := List UInt8 → ℕ → List UInt8

/-- The hierarchical matching of an invalidation tag `t` against an entry tag `x`: `x` is a
`':'`-terminated prefix of `t`, or `t` is a prefix of `x`. -/
def invalTagMatches (t x : List Char) : Bool :=
  (x.getLast? == some ':' && x.isPrefixOf t) || t.isPrefixOf x

/-- Every live entry holds its key's value at every pin of its interval. -/
def Sound (value : History) (st : Store) : Prop :=
  ∀ e ∈ st.entries, ∀ t, e.interval.lower ≤ t → t < e.interval.upper → value e.key t = e.data

/-- The sizes of the C structures in the runs below. Nothing is evicted in them, so the runs do
not depend on these sizes. -/
def smallLayout : Layout := { ptrSize := 8, htSize := 32, vsetSize := 24, vsetNodeSize := 64 }

/-- The store as `Store_Init` leaves it with the test suite's size and useless bound. -/
def freshStore : Store := Store.init smallLayout (1024 * 1024) 86400

/-- **The two routes disagree.** For a fresh store, a key with no entry and a put `[2, 5)+`:

* with an invalidation of the put's own tag at `ts = 5 = upper`, putting first leaves `[2, 5)`,
  invalidating first leaves `[2, 5)+`;
* with the tag `"a:c:"` put, and an invalidation at 6 of `"a:b:"` and then `"a:"`, putting first
  leaves `[2, 6)`, invalidating first leaves `[2, 5)+`. -/
theorem latePut_disagrees_with_direct_path :
    ((freshStore.put [1] ⟨2, 5, true⟩ [7] ["a:".toList] false 0).1.invalidate 5
        ["a:".toList] 0).map (·.intervalsOf [1]) = some [⟨2, 5, false⟩] ∧
    ((freshStore.invalidate 5 ["a:".toList] 0).map fun st ↦
        (st.put [1] ⟨2, 5, true⟩ [7] ["a:".toList] false 0).1.intervalsOf [1]) =
      some [⟨2, 5, true⟩] ∧
    ((freshStore.put [1] ⟨2, 5, true⟩ [7] ["a:c:".toList] false 0).1.invalidate 6
        ["a:b:".toList, "a:".toList] 0).map (·.intervalsOf [1]) = some [⟨2, 6, false⟩] ∧
    ((freshStore.invalidate 6 ["a:b:".toList, "a:".toList] 0).map fun st ↦
        (st.put [1] ⟨2, 5, true⟩ [7] ["a:c:".toList] false 0).1.intervalsOf [1]) =
      some [⟨2, 5, true⟩] := by
  decide

/-- The history of the run below: the key `[1]` holds `[7]` before pin 5 and `[8]` from pin 5
on. -/
def changeAtFive : History := fun _ t ↦ if t < 5 then [7] else [8]

/-- **A sound history, an unsound store.** The run `Store_Invalidate 5 ["a:"]`,
`Store_Put [1] [2, 5)+ [7] ["a:"]`, `Store_Invalidate 7 ["a:"]` meets the assumptions on
`changeAtFive`: the invalidation times increase, the put holds `[7]` on `[2, 5)` and the first
invalidation at or after its upper bound with a matching tag is at 5 itself, the one change of the
value is at 5 and is announced there with a matching tag, and the tags end in `':'`. The store it
leaves is not sound: it keeps `[7]` over `[2, 7)`, which contains 5. -/
theorem latePut_run_unsound :
    (∀ t, 2 ≤ t → t < 5 → changeAtFive [1] t = [7]) ∧
    (∀ t, changeAtFive [1] t ≠ changeAtFive [1] (t + 1) → t + 1 = 5) ∧
    invalTagMatches "a:".toList "a:".toList = true ∧
    ∃ st, freshStore.run [.invalidate 5 ["a:".toList] 0,
        .put [1] ⟨2, 5, true⟩ [7] ["a:".toList] false 0, .invalidate 7 ["a:".toList] 0] = some st ∧
      ¬ Sound changeAtFive st := by
  refine ⟨fun t _ ht ↦ by simp [changeAtFive, ht], fun t ht ↦ ?_, by decide, ?_⟩
  · by_contra hne
    apply ht
    -- away from 5, both pins are on the same side of the change
    unfold changeAtFive
    split_ifs <;> first | rfl | (exfalso; omega)
  · have hrun : (freshStore.run [.invalidate 5 ["a:".toList] 0,
        .put [1] ⟨2, 5, true⟩ [7] ["a:".toList] false 0, .invalidate 7 ["a:".toList] 0]).map
          (fun st ↦ st.entries.map fun e ↦ (e.key, e.data, e.interval)) =
        some [([1], [7], ⟨2, 7, false⟩)] := by
      decide
    obtain ⟨st, hst, hents⟩ := Option.map_eq_some_iff.mp hrun
    refine ⟨st, hst, fun hsound ↦ ?_⟩
    have hmem : (([1] : List UInt8), ([7] : List UInt8), (⟨2, 7, false⟩ : Interval)) ∈
        st.entries.map fun e ↦ (e.key, e.data, e.interval) := by
      rw [hents]; exact List.mem_singleton_self _
    obtain ⟨e, he, hfields⟩ := List.mem_map.mp hmem
    simp only [Prod.mk.injEq] at hfields
    obtain ⟨hkey, hdata, hint⟩ := hfields
    have hfive := hsound e he 5 (by rw [hint]; decide) (by rw [hint]; decide)
    rw [hkey, hdata] at hfive
    exact absurd hfive (by decide)

end TxCache
