import Mathlib.Tactic.Ring
import Goban.Proofs.Batch.Rounds

/-!
# Batches that run at the same time

A batch is taken when it has its share of the games that a device waits for, one of as many shares as
there are buffers. So no more batches of the present share run than there are buffers. But a batch
that was taken while there were few games goes on when there are more, and counts against the bound
no longer: three batches of a device with two buffers may run at once
(`Course.three_batches_of_two_buffers`). What is left is that every batch was a share of all that
ran when it was taken (`Tapered`), so the number of batches grows with the logarithm of the number
of games at most (`Course.Reachable.overlap_bounded`).
-/

namespace Goban

/-- Sizes of batches, the latest first, each of which was at least its share of all that ran when
it was taken. -/
def Tapered (shares : Nat) : List Nat → Prop
  | [] => True
  | size :: rest => 0 < size ∧ size + rest.sum ≤ shares * size ∧ Tapered shares rest

namespace Tapered

variable {shares size : Nat} {sizes sizes' : List Nat}

theorem sublist (h : Tapered shares sizes) (hs : sizes'.Sublist sizes) : Tapered shares sizes' := by
  induction hs with
  | slnil => trivial
  | cons size _ ih => exact ih h.2.2
  | cons_cons size hs ih =>
    obtain ⟨hpos, hshare, hrest⟩ := h
    have hsum := hs.sum_le_sum fun _ _ => Nat.zero_le _
    exact ⟨hpos, (Nat.add_le_add_left hsum size).trans hshare, ih hrest⟩

/-- Each batch leaves the ones before it less than their part of the whole. -/
theorem pow_le (h : Tapered shares (size :: sizes)) :
    shares ^ sizes.length ≤ (shares - 1) ^ sizes.length * (size + sizes.sum) := by
  induction sizes generalizing size with
  | nil =>
    have hpos := h.1
    simp only [List.length_nil, pow_zero, List.sum_nil]
    omega
  | cons next sizes ih =>
    obtain ⟨hpos, hshare, hrest⟩ := h
    cases shares with
    | zero => omega
    | succ k =>
      have hpart : (k + 1) * (next + sizes.sum) ≤ k * (size + (next + sizes.sum)) := by
        rw [List.sum_cons, Nat.succ_mul] at hshare
        rw [Nat.succ_mul, Nat.mul_add k size]
        omega
      have ih := ih hrest
      simp only [Nat.add_sub_cancel] at ih ⊢
      rw [List.length_cons, List.sum_cons]
      calc (k + 1) ^ (sizes.length + 1)
        _ = (k + 1) ^ sizes.length * (k + 1) := pow_succ _ _
        _ ≤ k ^ sizes.length * (next + sizes.sum) * (k + 1) := Nat.mul_le_mul_right _ ih
        _ = k ^ sizes.length * ((k + 1) * (next + sizes.sum)) := by ring
        _ ≤ k ^ sizes.length * (k * (size + (next + sizes.sum))) := Nat.mul_le_mul_left _ hpart
        _ = k ^ (sizes.length + 1) * (size + (next + sizes.sum)) := by ring

end Tapered

namespace Phase

/-- Whether a client runs a batch. -/
def isRunning : Phase → Bool
  | running _ _ => true
  | _ => false

theorem isRunning_iff {p : Phase} :
    p.isRunning = true ↔ ∃ t batch, p = .running t batch := by
  cases p <;> simp [isRunning]

end Phase

namespace Hub

variable {h : Hub} {i x : Nat} {runners : List Nat}

/-- Whether a client runs a batch of a device. -/
def Runs (h : Hub) (i x : Nat) : Prop :=
  (h.client x).device = i ∧ (h.client x).phase.isRunning = true

instance (h : Hub) (i x : Nat) : Decidable (h.Runs i x) := inferInstanceAs (Decidable (_ ∧ _))

/-- The size of the batch that a client runs. -/
def batchOf (h : Hub) (x : Nat) : Nat := (h.client x).phase.batch.length

theorem Runs.exists_batch (hx : h.Runs i x) : ∃ t batch, (h.client x).phase = .running t batch :=
  Phase.isRunning_iff.mp hx.2

theorem Runs.known (hx : h.Runs i x) : x < h.clients.size := by
  obtain ⟨t, batch, hp⟩ := hx.exists_batch
  exact Tickets.known_of_ticket? (by rw [hp]; rfl)

/-- Batches of several clients hold no more requests than all batches do. -/
theorem sum_batchOf_le (hnodup : runners.Nodup) (hruns : ∀ x ∈ runners, h.Runs i x) :
    (runners.map h.batchOf).sum ≤ h.totalOn i fun p => p.batch.length := by
  induction runners generalizing h with
  | nil => exact Nat.zero_le _
  | cons x rest ih =>
    obtain ⟨hx, hrest⟩ := List.nodup_cons.mp hnodup
    have hrun := hruns x List.mem_cons_self
    have hsum := totalOn_idle_add (f := fun p => p.batch.length) rfl hrun.known hrun.1
    have hsame : ∀ y ∈ rest, (h.setPhase x .idle).client y = h.client y := fun y hy =>
      client_changeClient_ne _ _ _ _ fun e => hx (e ▸ hy)
    have hle := ih (h := h.setPhase x .idle) hrest fun y hy => by
      unfold Runs
      rw [hsame y hy]
      exact hruns y (List.mem_cons_of_mem x hy)
    have hmap : rest.map (h.setPhase x .idle).batchOf = rest.map h.batchOf :=
      List.map_congr_left fun y hy => by rw [batchOf, hsame y hy, batchOf]
    rw [hmap] at hle
    rw [List.map_cons, List.sum_cons, ← hsum, Nat.add_comm]
    exact Nat.add_le_add_right hle _

end Hub

namespace Course

variable {c c' : Course} {i x : Nat} {a : Act} {runners : List Nat}

/-- What runs on a device is asked by games that are live and not away. -/
theorem Kept.sum_batchOf_le (hl : c.Kept) (hnodup : runners.Nodup)
    (hruns : ∀ x ∈ runners, c.hub.Runs i x) :
    (runners.map c.hub.batchOf).sum ≤ (c.hub.device i).live - (c.hub.device i).away := by
  have hsum := Hub.sum_batchOf_le hnodup hruns
  have hle := hl.asking_add_away_le i
  have hasking := hl.asking_eq i
  unfold Hub.taken at hasking
  omega

/-- The clients that run batches of a device, the one that took its batch last first. -/
structure Layers (c : Course) (i : Nat) (runners : List Nat) : Prop where
  nodup : runners.Nodup
  mem : ∀ x, x ∈ runners ↔ c.hub.Runs i x
  tapered : Tapered (c.hub.device i).buffers (runners.map c.hub.batchOf)

/-- A client that runs a batch and did not take it just now ran the same batch before. -/
theorem runs_before (ok : c.after a = .ok c') (hx : c'.hub.Runs i x)
    (hold : a ≠ .event (.proceed x)) :
    c.hub.Runs i x ∧ c'.hub.batchOf x = c.hub.batchOf x := by
  obtain ⟨t, batch, hp⟩ := hx.exists_batch
  have hp' := (running_of_after ok hp).resolve_right hold
  have hknown : x < c.hub.clients.size := Tickets.known_of_ticket? (by rw [hp']; rfl)
  refine ⟨⟨(home_after ok hknown).symm.trans hx.1, ?_⟩, ?_⟩
  · rw [hp']
    rfl
  · rw [Hub.batchOf, Hub.batchOf, hp, hp']

/-- Those of the runners that go on are as they were. -/
theorem Layers.rest (h : c.Layers i runners) (ok : c.after a = .ok c') {goes : Nat → Bool}
    (hgoes : ∀ x, goes x = true → c'.hub.Runs i x ∧ a ≠ .event (.proceed x)) :
    Tapered (c'.hub.device i).buffers ((runners.filter goes).map c'.hub.batchOf) := by
  have hmap : (runners.filter goes).map c'.hub.batchOf = (runners.filter goes).map c.hub.batchOf :=
    List.map_congr_left fun x hx => by
      obtain ⟨hruns, hold⟩ := hgoes x (List.mem_filter.mp hx).2
      exact (runs_before ok hruns hold).2
  rw [hmap, buffers_after ok]
  exact h.tapered.sublist (List.filter_sublist.map _)

/-- Whatever is done next, at most one batch is taken, and it is a share of all that run. -/
theorem Layers.after (h : c.Layers i runners) (hl : c.Kept) (hl' : c'.Kept)
    (hpos : 0 < (c.hub.device i).buffers) (ok : c.after a = .ok c') :
    ∃ runners', c'.Layers i runners' := by
  by_cases htakes : ∃ x, a = .event (.proceed x) ∧ c'.hub.Runs i x
  · obtain ⟨x, rfl, hx⟩ := htakes
    obtain ⟨t, batch, hp⟩ := hx.exists_batch
    obtain ⟨d, hready, hqueue, hdevice⟩ := hl.taken_of_proceed ok hp
    rw [hx.1] at hdevice
    let goes : Nat → Bool := fun y => decide (y ≠ x ∧ c'.hub.Runs i y)
    have hgoes : ∀ y, goes y = true ↔ y ≠ x ∧ c'.hub.Runs i y := fun y => decide_eq_true_iff
    have hmem : ∀ y, y ∈ x :: runners.filter goes ↔ c'.hub.Runs i y := by
      intro y
      rw [List.mem_cons, List.mem_filter, hgoes]
      constructor
      · rintro (rfl | ⟨-, -, hy⟩)
        · exact hx
        · exact hy
      · intro hy
        by_cases hyx : y = x
        · exact .inl hyx
        · refine .inr ⟨(h.mem y).mpr (runs_before ok hy ?_).1, hyx, hy⟩
          simpa [eq_comm] using hyx
    have hnodup : (x :: runners.filter goes).Nodup := by
      refine List.nodup_cons.mpr ⟨fun hmem => ?_, h.nodup.filter _⟩
      exact ((hgoes x).mp (List.mem_filter.mp hmem).2).1 rfl
    have hbatch : c'.hub.batchOf x = batch.length := by rw [Hub.batchOf, hp]; rfl
    refine ⟨_, hnodup, hmem, ?_⟩
    rw [List.map_cons]
    refine ⟨?_, ?_, h.rest ok fun y hy => ⟨((hgoes y).mp hy).2, ?_⟩⟩
    · rw [hbatch, ← hqueue]
      unfold Device.isReady at hready
      cases hd : d.pending with
      | nil =>
        rw [hd] at hready
        cases hready
      | cons r rest => exact Nat.succ_pos _
    · have hsum := hl'.sum_batchOf_le hnodup fun y hy => (hmem y).mp hy
      rw [List.map_cons, List.sum_cons] at hsum
      have hbuffers : d.buffers = (c'.hub.device i).buffers := by rw [hdevice]; rfl
      have hshare := Device.le_mul_of_isReady (by rw [hbuffers, buffers_after ok]; exact hpos) hready
      rw [hdevice] at hsum ⊢
      rw [hqueue, ← hbatch] at hshare
      exact hsum.trans hshare
    · simpa [eq_comm] using ((hgoes y).mp hy).1
  · have hold : ∀ y, c'.hub.Runs i y → a ≠ .event (.proceed y) :=
      fun y hy he => htakes ⟨y, he, hy⟩
    refine ⟨runners.filter fun y => decide (c'.hub.Runs i y), h.nodup.filter _, fun y => ?_,
      h.rest ok fun y hy => ⟨of_decide_eq_true hy, hold y (of_decide_eq_true hy)⟩⟩
    rw [List.mem_filter, decide_eq_true_iff]
    exact ⟨fun hy => hy.2, fun hy => ⟨(h.mem y).mpr (runs_before ok hy (hold y hy)).1, hy⟩⟩

theorem Reachable.exists_layers (hc : c.Reachable) (i : Nat) : ∃ runners, c.Layers i runners := by
  have hboth : c.Kept ∧ 0 < (c.hub.device i).buffers ∧ ∃ runners, c.Layers i runners := by
    refine hc.induction (P := fun c => c.Kept ∧ 0 < (c.hub.device i).buffers ∧
      ∃ runners, c.Layers i runners) (fun devices hnew => ?_) fun c a c' h allowed ok => ?_
    · have hstart : (start devices).Reachable := ⟨devices, [], hnew, .rest⟩
      refine ⟨kept_start hnew, hstart.buffers_pos i, [], List.nodup_nil, fun x => ?_, trivial⟩
      refine ⟨fun hx => absurd hx List.not_mem_nil, fun hx => ?_⟩
      cases hx.2
    · obtain ⟨hl, hpos, runners, hlayers⟩ := h
      have hl' := hl.after allowed ok
      exact ⟨hl', buffers_after ok i ▸ hpos, hlayers.after hl hl' hpos ok⟩
  exact hboth.2.2

/-- At most as many batches of the present full size run on a device as it has buffers; and of
whatever size, so many that the number of games to wait for outgrows a power in it. -/
theorem Reachable.overlap_bounded (hc : c.Reachable) (hnodup : runners.Nodup)
    (hruns : ∀ x ∈ runners, c.hub.Runs i x) :
    ((∀ x ∈ runners, (c.hub.device i).batchSize ≤ c.hub.batchOf x) →
      runners.length ≤ (c.hub.device i).buffers) ∧
    (runners ≠ [] → (c.hub.device i).buffers ^ (runners.length - 1) ≤
      ((c.hub.device i).buffers - 1) ^ (runners.length - 1) *
        ((c.hub.device i).live - (c.hub.device i).away)) := by
  have hpos := hc.buffers_pos i
  have hsum := hc.kept.sum_batchOf_le hnodup hruns
  constructor
  · intro hlarge
    have hleast : (runners.map c.hub.batchOf).length * (c.hub.device i).batchSize ≤
        (runners.map c.hub.batchOf).sum := List.card_nsmul_le_sum _ _ fun size hsize => by
      obtain ⟨x, hx, rfl⟩ := List.mem_map.mp hsize
      exact hlarge x hx
    rw [List.length_map] at hleast
    have hshare := Device.le_mul_batchSize hpos
    exact Nat.le_of_mul_le_mul_right (hleast.trans (hsum.trans hshare)) (Nat.le_max_right _ 1)
  · intro hne
    obtain ⟨layers, hlayers⟩ := hc.exists_layers i
    -- The same clients, in the order in which they took their batches.
    have hperm : (layers.filter fun x => decide (x ∈ runners)).Perm runners := by
      refine (List.perm_ext_iff_of_nodup (hlayers.nodup.filter _) hnodup).mpr fun x => ?_
      rw [List.mem_filter, decide_eq_true_iff, hlayers.mem]
      exact ⟨fun hx => hx.2, fun hx => ⟨hruns x hx, hx⟩⟩
    have htapered := hlayers.tapered.sublist
      ((layers.filter_sublist (p := fun x => decide (x ∈ runners))).map c.hub.batchOf)
    rw [← (hperm.map c.hub.batchOf).sum_eq] at hsum
    rw [← hperm.length_eq]
    cases hordered : layers.filter fun x => decide (x ∈ runners) with
    | nil =>
      rw [hordered] at hperm
      exact absurd hperm.nil_eq.symm hne
    | cons x rest =>
      rw [hordered, List.map_cons] at htapered hsum
      have hpow := htapered.pow_le
      rw [List.length_map] at hpow
      exact hpow.trans (Nat.mul_le_mul_left _ hsum)

/-- One batch of a device with two buffers is within the bounds. -/
theorem overlap_bounded_of_one_batch : ∃ c : Course, c.Reachable ∧ c.hub.Runs 0 0 ∧
    (c.hub.device 0).batchSize = 1 ∧ [0].length ≤ (c.hub.device 0).buffers ∧
      (c.hub.device 0).buffers ^ ([0].length - 1) ≤
        ((c.hub.device 0).buffers - 1) ^ ([0].length - 1) *
          ((c.hub.device 0).live - (c.hub.device 0).away) := by
  have h₀ : (start [.empty "cpu" 2]).Reachable :=
    ⟨_, [], fun d hd => ⟨"cpu", 2, by rw [List.mem_singleton.mp hd]; rfl⟩, .rest⟩
  have h₁ := h₀.act (a := .load 0 (fun _ _ => .ok .uniform) "uniform") trivial rfl
  have h₂ := (h₁.act (a := .addClient 0 0) rfl rfl).act (a := .addClient 0 0) rfl rfl
  have h₃ := h₂.act (a := .event (.startGame 0 1))
    ⟨by decide, by decide, by decide, by rintro g ⟨⟩, by rintro g ⟨⟩⟩ rfl
  have h₄ := (h₃.act (a := .event (.request 0 [.initial .zero]))
    ⟨1, .inl List.mem_cons_self, rfl, rfl⟩ rfl).act (a := .event (.proceed 0)) trivial rfl
  have hbounds := h₄.overlap_bounded (i := 0) (List.nodup_singleton 0) fun x hx => by
    rw [List.mem_singleton.mp hx]
    exact ⟨rfl, rfl⟩
  refine ⟨_, h₄, ⟨rfl, rfl⟩, rfl, hbounds.1 fun x hx => ?_, hbounds.2 (List.cons_ne_nil _ _)⟩
  rw [List.mem_singleton.mp hx]
  decide

/-- Two batches of one request are on their way when two more games start, and these fill the next
batch at once: three batches of a device with two buffers run at the same time. -/
theorem three_batches_of_two_buffers : ∃ acts c, Run (start [.empty "cpu" 2]) acts c ∧
    (∀ i, .event (.flush i) ∉ acts) ∧ (c.hub.device 0).buffers = 2 ∧
      c.hub.Runs 0 0 ∧ c.hub.Runs 0 2 ∧ c.hub.Runs 0 6 := by
  have h₀ : Run (start [.empty "cpu" 2]) [] _ := .rest
  have h₁ := h₀.act (a := .load 0 (fun _ _ => .ok .uniform) "uniform") trivial rfl
  have h₂ := ((h₁.act (a := .addClient 0 0) rfl rfl).act (a := .addClient 0 0) rfl rfl).act
    (a := .addClient 0 0) rfl rfl
  have h₃ := ((h₂.act (a := .addClient 0 0) rfl rfl).act (a := .addClient 0 0) rfl rfl).act
    (a := .addClient 0 0) rfl rfl
  have h₄ := (h₃.act (a := .addClient 0 0) rfl rfl).act (a := .addClient 0 0) rfl rfl
  have h₅ := h₄.act (a := .event (.startGame 0 1))
    ⟨by decide, by decide, by decide, by rintro g ⟨⟩, by rintro g ⟨⟩⟩ rfl
  have h₆ := (h₅.act (a := .event (.request 0 [.initial .zero]))
    ⟨1, .inl List.mem_cons_self, rfl, rfl⟩ rfl).act (a := .event (.proceed 0)) trivial rfl
  have h₇ := h₆.act (a := .event (.startGame 2 3)) ⟨by decide, by decide, by decide,
    (by decide : ∀ g ∈ [(0, 1)], g.1 ≠ 2 ∧ g.2 ≠ 2),
    (by decide : ∀ g ∈ [(0, 1)], g.1 ≠ 3 ∧ g.2 ≠ 3)⟩ rfl
  have h₈ := (h₇.act (a := .event (.request 2 [.initial .zero]))
    ⟨3, .inl List.mem_cons_self, rfl, rfl⟩ rfl).act (a := .event (.proceed 2)) trivial rfl
  have h₉ := h₈.act (a := .event (.startGame 4 5)) ⟨by decide, by decide, by decide,
    (by decide : ∀ g ∈ [(2, 3), (0, 1)], g.1 ≠ 4 ∧ g.2 ≠ 4),
    (by decide : ∀ g ∈ [(2, 3), (0, 1)], g.1 ≠ 5 ∧ g.2 ≠ 5)⟩ rfl
  have h₁₀ := h₉.act (a := .event (.startGame 6 7)) ⟨by decide, by decide, by decide,
    (by decide : ∀ g ∈ [(4, 5), (2, 3), (0, 1)], g.1 ≠ 6 ∧ g.2 ≠ 6),
    (by decide : ∀ g ∈ [(4, 5), (2, 3), (0, 1)], g.1 ≠ 7 ∧ g.2 ≠ 7)⟩ rfl
  have h₁₁ := (h₁₀.act (a := .event (.request 4 [.initial .zero]))
    ⟨5, .inl (List.mem_cons_of_mem _ List.mem_cons_self), rfl, rfl⟩ rfl).act
      (a := .event (.proceed 4)) trivial rfl
  have h₁₂ := (h₁₁.act (a := .event (.request 6 [.initial .zero]))
    ⟨7, .inl List.mem_cons_self, rfl, rfl⟩ rfl).act (a := .event (.proceed 6)) trivial rfl
  refine ⟨_, _, h₁₂, fun i => ?_, rfl, ⟨rfl, rfl⟩, ⟨rfl, rfl⟩, rfl, rfl⟩
  simp

end Course

end Goban
