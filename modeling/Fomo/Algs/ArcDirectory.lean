import Fomo.Algs.ArcSync
import Fomo.Lib.ArcDirectory

/-!
# What synchronous ARC remembers

The blocks that ARC knows, cached or not, do not depend on its target.
-/
namespace Fomo

open ArcPolicy

/-- Synchronous ARC knows the blocks of a directory of two lists, whatever its target was: the
ghosts `B1` before `T1` are the blocks seen once, the ghosts `B2` before `T2` those seen again, in
the order of their last requests. The last `cache_size` distinct blocks are always among them. -/
theorem arc_directory {c m : UInt32} (hc0 : 1 ≤ c.toNat) (hc : 4 * c.toNat < 2 ^ 32)
    (hcm : c.toNat ≤ m.toNat) {s0 : ArcPolicy} (hinit : arcCreate c m = .ok s0)
    (xs : List (Oblock × Bool)) : ∃ s results, arcApi.requests s0 xs = .ok (s, results) ∧
      s.oblocks .b1 ++ s.oblocks .t1 =
        (Lib.DoubleList.requests c.toNat {} (xs.map Prod.fst)).l1 ∧
      s.oblocks .b2 ++ s.oblocks .t2 =
        (Lib.DoubleList.requests c.toNat {} (xs.map Prod.fst)).l2 ∧
      (s.oblocks .b1 ++ s.oblocks .t1).Sublist (xs.map Prod.fst).dedup ∧
      (s.oblocks .b2 ++ s.oblocks .t2).Sublist (xs.map Prod.fst).dedup ∧
      ∀ o ∈ Lib.mostRecent c.toNat (xs.map Prod.fst), (hashLookup s.nucleus o).isSome := by
  obtain ⟨h0, href0⟩ := Synced.of_create hinit
  obtain ⟨s, results, hrun, h, href, _⟩ := h0.requests hc0 hc hcm xs
  obtain ⟨hdir, hb⟩ := (Lib.Arc.Balanced.nil c.toNat).requests hc0 (xs.map Prod.fst)
  rw [href0] at href
  rw [← href] at hdir hb
  refine ⟨s, results, hrun, congrArg Lib.DoubleList.l1 hdir, congrArg Lib.DoubleList.l2 hdir,
    hb.recalls.l1, hb.recalls.l2, fun o ho => ?_⟩
  have hknown : ∀ {l : ArcList}, o ∈ s.oblocks l → (hashLookup s.nucleus o).isSome := by
    intro l hmem
    obtain ⟨r, hr, _⟩ := h.bounded.inv.mem_oblocks.mp hmem
    rw [hr]
    rfl
  rcases hb.recalls.recent o ho with hmem | hmem
  · exact (List.mem_append.mp hmem).elim hknown hknown
  · exact (List.mem_append.mp hmem).elim hknown hknown

/-- Block 1 is seen again, 2 and 3 push each other out of the cache, and all three are known. -/
theorem arc_directory_three : ∃ s0 s results, arcCreate 2 2 = .ok s0 ∧
    arcApi.requests s0 [(1, false), (1, false), (2, true), (3, false)] = .ok (s, results) ∧
    s.oblocks .b1 ++ s.oblocks .t1 = [2, 3] ∧ s.oblocks .b2 ++ s.oblocks .t2 = [1] := by
  obtain ⟨s, results, hrun, hl1, hl2, _⟩ := arc_directory (c := 2) (m := 2) (by decide) (by decide)
    (by decide) (arcCreate_eq 2 2) [(1, false), (1, false), (2, true), (3, false)]
  exact ⟨_, s, results, arcCreate_eq 2 2, hrun, hl1, hl2⟩

end Fomo
