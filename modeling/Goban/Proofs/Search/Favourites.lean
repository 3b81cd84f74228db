import Goban.Proofs.Single.Comparison
import Goban.Search.Player

/-!
# The favourite of a player

Keys are compared one after the other, and the greatest so far is kept (`lastGreatest_isGreatest`).
So the favourite is a branch with the most visits, and with the greatest prior of those
(`Player.branch_of_favourite?`).
-/

namespace Goban

section Greatest

variable {κ : Type} {order : κ → κ → Ordering} [Std.TransCmp order]

/-- What is greatest of the keys that were seen is the greatest of all after the others were seen. -/
theorem lastGreatestFrom_isGreatest (seen ks : List κ) (best : Nat × κ)
    (hbest : seen[best.1]? = some best.2) (hseen : ∀ k ∈ seen, (order k best.2).isLE) :
    ∃ k, (seen ++ ks)[lastGreatestFrom order ks seen.length best]? = some k ∧
      ∀ k' ∈ seen ++ ks, (order k' k).isLE := by
  induction ks generalizing seen best with
  | nil =>
    rw [List.append_nil]
    exact ⟨best.2, hbest, hseen⟩
  | cons k rest ih =>
    have hnext := ih (seen ++ [k]) (if order best.2 k = .gt then best else (seen.length, k))
    rw [List.append_assoc, List.length_append] at hnext
    refine hnext ?_ ?_
    · split
      · rw [List.getElem?_append_left (List.getElem?_eq_some_iff.mp hbest).1]
        exact hbest
      · exact List.getElem?_concat_length ..
    · intro k' hk'
      rw [List.mem_append, List.mem_singleton] at hk'
      split
      · rename_i hgt
        rcases hk' with hk' | rfl
        · exact hseen k' hk'
        · have hswap : order k' best.2 = (order best.2 k').swap := Std.OrientedCmp.eq_swap
          rw [hswap, hgt]
          rfl
      · rename_i hle
        rcases hk' with hk' | rfl
        · exact Std.TransCmp.isLE_trans (hseen k' hk') (Ordering.isLE_iff_ne_gt.mpr hle)
        · exact Std.ReflCmp.isLE_rfl

theorem lastGreatest_isGreatest {ks : List κ} {place : Nat}
    (h : lastGreatest order ks = some place) :
    ∃ k, ks[place]? = some k ∧ ∀ k' ∈ ks, (order k' k).isLE := by
  cases ks with
  | nil => cases h
  | cons k rest =>
    cases h
    refine lastGreatestFrom_isGreatest [k] rest (0, k) rfl ?_
    intro k' hk'
    rw [List.mem_singleton.mp hk']
    exact Std.ReflCmp.isLE_rfl

end Greatest

namespace Player

variable {p : Player} {m : Move}

instance : Std.TransCmp branchOrder :=
  inferInstanceAs (Std.TransCmp
    (compareLex (compareOn fun n : Node => n.visits) (compareOn fun n : Node => n.prior.rank)))

theorem isLE_branchOrder {a b : Node} : (branchOrder a b).isLE ↔
    a.visits ≤ b.visits ∧ (a.visits = b.visits → (a.prior.totalOrder b.prior).isLE) := by
  unfold branchOrder
  rw [Ordering.isLE_then_iff_and, Nat.isLE_compare, Nat.compare_eq_lt]
  refine and_congr_right fun hle => ?_
  constructor
  · rintro (hlt | hprior) heq
    · exact absurd heq (Nat.ne_of_lt hlt)
    · exact hprior
  · intro hprior
    exact (Nat.lt_or_eq_of_le hle).imp_right hprior

/-- No branch has more visits than the favourite, and none with as many a greater prior. -/
theorem branch_of_favourite? (h : p.favourite? = some m) :
    ∃ below, (m, below) ∈ p.tree.branches ∧ ∀ b ∈ p.tree.branches,
      b.2.top.visits ≤ below.top.visits ∧ (b.2.top.visits = below.top.visits →
        (b.2.top.prior.totalOrder below.top.prior).isLE ∧
          ¬below.top.prior < b.2.top.prior) := by
  unfold favourite? at h
  obtain ⟨place, hplace, hmove⟩ := Option.bind_eq_some_iff.mp h
  obtain ⟨⟨move, below⟩, hbranch, rfl⟩ := Option.map_eq_some_iff.mp hmove
  obtain ⟨top, htop, hgreatest⟩ := lastGreatest_isGreatest hplace
  rw [List.getElem?_map, hbranch] at htop
  cases htop
  refine ⟨below, List.mem_of_getElem? hbranch, ?_⟩
  intro b hb
  obtain ⟨hvisits, hprior⟩ := isLE_branchOrder.mp (hgreatest b.2.top (List.mem_map_of_mem hb))
  exact ⟨hvisits, fun heq => ⟨hprior heq, Single.not_lt_of_totalOrder (hprior heq)⟩⟩

end Player

end Goban
