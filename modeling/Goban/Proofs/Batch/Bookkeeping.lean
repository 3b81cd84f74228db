import Goban.Proofs.Batch.Ledger

/-!
# The counts of a device

The checks that an operation of a device makes never fail in a course, the counts are those of the
games and of the requests, and nothing is left over when all games have ended.
-/

namespace Goban

namespace Hub

/-- The number of requests of a device in batches that run. -/
def taken (h : Hub) (i : Nat) : Nat :=
  h.totalOn i (fun p => p.batch.length) +
    (h.flushes.map fun f => if f.1 = i then f.2.length else 0).sum

theorem card_sum_map {α : Type} (q : α → Multiset Nat) (l : List α) :
    (l.map q).sum.card = (l.map fun a => (q a).card).sum := by
  induction l with
  | nil => rfl
  | cons a l ih => simp [ih]

theorem card_totalOn_taken (h : Hub) (i : Nat) :
    (h.totalOn i Phase.taken).card = h.totalOn i fun p => p.batch.length := by
  unfold totalOn total
  rw [card_sum_map]
  congr 1
  refine List.map_congr_left fun c _ => ?_
  split
  · simp [Phase.taken]
  · rfl

/-- An outstanding ticket stands for a request that is pending, taken or answered. -/
theorem card_outstanding (h : Hub) (i : Nat) : (h.outstanding i).card =
    (h.device i).pending.length + h.taken i + (h.device i).results.length := by
  have hflushed : (h.flushedOn i).card =
      (h.flushes.map fun f => if f.1 = i then f.2.length else 0).sum := by
    unfold flushedOn
    rw [card_sum_map]
    congr 1
    refine List.map_congr_left fun f _ => ?_
    split <;> simp
  simp only [outstanding, taken, Multiset.card_add, card_totalOn_taken, hflushed, card_tickets,
    Device.published, Multiset.coe_card, List.length_map]
  omega

end Hub

/-! ## Which faults can be met -/

namespace Ledger

variable {h : Hub} {games : List (Nat × Nat)} {asked : Nat → List Position}
  {returned : Nat → List Nat} {fault : Fault} {a b i x : Nat}

/-- A request is for a model that its device has. -/
theorem key_lt (hl : Ledger h games asked returned) {r : Request} (hr : h.Holds i r) :
    r.key < (h.device i).models.length := by
  obtain ⟨x, rfl, ht⟩ := hl.tickets.exists_owner hr.mem_outstanding
  rw [(hl.routed.held x r.ticket r ht hr rfl).1]
  exact hl.routed.known x (Tickets.known_of_ticket? ht)

theorem runBatch_fault (hl : Ledger h games asked returned) {batch : List Request}
    (held : ∀ r ∈ batch, h.Holds i r)
    (hfault : Device.runBatch (h.device i).models batch = .error fault) : fault = .answerCount :=
  Device.runBatch_eq_error (fun r hr => hl.key_lt (held r hr)) hfault

theorem proceed_fault (hl : Ledger h games asked returned) (hfault : h.proceed x = .error fault) :
    fault = .answerCount := by
  unfold Hub.proceed at hfault
  simp only at hfault
  split at hfault
  · rename_i positions hp
    obtain ⟨d, hd⟩ := hl.census.leave_isOk hp
    rw [hd] at hfault
    cases hfault
  · rename_i positions hp
    obtain ⟨t, d, hd⟩ := hl.census.submit_isOk hp
    rw [hd] at hfault
    cases hfault
  · cases hfault
  · rename_i t batch hp
    cases hrun : h.runBatch (h.client x).device batch with
    | ok h' =>
      rw [hrun] at hfault
      cases hfault
    | error fault' =>
      rw [hrun] at hfault
      cases hfault
      refine hl.runBatch_fault (fun r hr => .inr (.inl ⟨x, rfl, ?_⟩)) (Hub.runBatch_eq_error hrun)
      rw [hp]
      exact hr
  · rename_i answer hp
    obtain ⟨d, hd⟩ := hl.census.rejoin_isOk hp
    rw [hd] at hfault
    cases hfault
  · cases hfault
  · rename_i partner hp
    obtain ⟨h', hun⟩ := hl.census.closing_isOk hp
    rw [hun] at hfault
    cases hfault
  all_goals cases hfault

theorem runFlush_fault (hl : Ledger h games asked returned) {k : Nat}
    (hfault : h.runFlush k = .error fault) : fault = .answerCount := by
  unfold Hub.runFlush at hfault
  split at hfault
  · cases hfault
  · rename_i i batch hflush
    have hrun := Hub.runBatch_eq_error hfault
    exact hl.runBatch_fault (fun r hr => .inr (.inr ⟨batch, List.mem_of_getElem? hflush, hr⟩)) hrun

theorem startGame_isOk (hl : Ledger h games asked returned) (ha : a ∉ members games)
    (hb : b ∉ members games) : ∃ h', h.startGame a b = .ok h' := by
  obtain ⟨-, hia, -⟩ := hl.census.free a ha
  obtain ⟨-, hib, -⟩ := hl.census.free b hb
  unfold Hub.startGame
  simp only [hia, hib, Bool.or_self, Bool.false_eq_true, if_false]
  split <;> exact ⟨_, rfl⟩

theorem endGame_isOk (hl : Ledger h games asked returned) (hg : (a, b) ∈ games ∨ (b, a) ∈ games)
    (ha : (h.client a).phase = .idle) (hb : (h.client b).phase = .idle) :
    ∃ h', h.endGame a b = .ok h' := by
  have turn := hl.census.leads_of_idle hg ha hb
  obtain ⟨hub, hun⟩ := hl.census.stop_isOk hg ha hb
  unfold Hub.endGame
  simp only [turn.inGame, turn.inGame', Bool.and_self, Bool.not_true, Bool.false_eq_true, if_false,
    hun]
  split
  · exact ⟨hub.exit a b, by simp_all [bind, Except.bind]; rfl⟩
  · exact ⟨_, by simp_all [bind, Except.bind]; rfl⟩

theorem request_isOk (hl : Ledger h games asked returned) {y : Nat}
    (hg : (x, y) ∈ games ∨ (y, x) ∈ games) (hx : (h.client x).phase = .idle)
    (hy : (h.client y).phase = .idle) (positions : List Position) :
    ∃ h', h.request x positions = .ok h' := by
  rw [Hub.request_eq, if_pos (hl.census.leads_of_idle hg hx hy).inGame]
  exact ⟨_, rfl⟩

end Ledger

namespace Course

variable {c : Course}

/-- Whatever is allowed succeeds, unless a model answers the wrong number of times. -/
theorem Kept.fault_eq (hl : c.Kept) {a : Act} (allowed : c.Allows a) {fault : Fault}
    (hfault : c.after a = .error fault) : fault = .answerCount := by
  cases a with
  | load i loader path => cases hfault
  | addClient i key =>
    obtain ⟨name, hname⟩ := Option.isSome_iff_exists.mp allowed
    simp only [Course.after, Hub.addClient, hname] at hfault
    cases hfault
  | event e =>
    simp only [Course.after] at hfault
    cases hact : c.hub.act e with
    | ok hub =>
      rw [hact] at hfault
      cases hfault
    | error fault' =>
      rw [hact] at hfault
      cases hfault
      cases e with
      | startGame a b =>
        obtain ⟨-, -, -, hfa, hfb⟩ := allowed
        obtain ⟨h', hok⟩ := Ledger.startGame_isOk hl (Census.not_mem_members hfa)
          (Census.not_mem_members hfb)
        cases hok.symm.trans hact
      | endGame a b =>
        obtain ⟨hg, ha, hb⟩ := allowed
        obtain ⟨h', hok⟩ := Ledger.endGame_isOk hl hg ha hb
        cases hok.symm.trans hact
      | request x positions =>
        obtain ⟨y, hg, hx, hy⟩ := allowed
        obtain ⟨h', hok⟩ := Ledger.request_isOk hl hg hx hy positions
        cases hok.symm.trans hact
      | proceed x => exact Ledger.proceed_fault hl hact
      | collect x => cases hact
      | flush i => cases hact
      | runFlush k => exact Ledger.runFlush_fault hl hact
      | stir x => cases hact

/-- The games of a device that neither ask nor are away are not counted twice. -/
theorem Kept.asking_add_away_le (hl : c.Kept) (i : Nat) :
    (c.hub.device i).asking + (c.hub.device i).away ≤ (c.hub.device i).live := by
  rw [hl.census.asking, hl.census.away, hl.census.live, ← Hub.pairSum_add]
  exact Hub.pairSum_le fun g hg => (hl.census.bond g hg).asks_add_awayFrom_le i

theorem Kept.asking_eq (hl : c.Kept) (i : Nat) : (c.hub.device i).asking =
    (c.hub.device i).pending.length + c.hub.taken i + (c.hub.device i).results.length := by
  rw [hl.tickets.asking, Hub.card_outstanding]

theorem Kept.empty_of_games_eq_nil (hl : c.Kept) (hgames : c.games = []) (i : Nat) :
    (c.hub.device i).live = 0 ∧ (c.hub.device i).away = 0 ∧ (c.hub.device i).asking = 0 ∧
      (c.hub.device i).pending = [] ∧ (c.hub.device i).results = [] := by
  have hlive := hl.census.live i
  rw [hgames] at hlive
  have hle := hl.asking_add_away_le i
  have hsum := hl.asking_eq i
  have hzero : (c.hub.device i).live = 0 := hlive
  refine ⟨hzero, by omega, by omega, ?_, ?_⟩
  · exact List.length_eq_zero_iff.mp (by omega)
  · exact List.length_eq_zero_iff.mp (by omega)

/-- In every course the counts of every device are those of its games and of its requests, no check
of them can fail, and nothing is left of games that have ended. -/
theorem Reachable.books_balance (hc : c.Reachable) :
    (∀ i, (c.hub.device i).asking + (c.hub.device i).away ≤ (c.hub.device i).live ∧
      (c.hub.device i).asking =
        (c.hub.device i).pending.length + c.hub.taken i + (c.hub.device i).results.length ∧
      (c.hub.device i).live = c.hub.pairSum c.games (enrolls i) ∧
      (c.hub.device i).away = c.hub.pairSum c.games fun x y => x.awayFrom i + y.awayFrom i) ∧
    (∀ a fault, c.Allows a → c.after a = .error fault → fault = .answerCount) ∧
    (c.games = [] → ∀ i, (c.hub.device i).live = 0 ∧ (c.hub.device i).away = 0 ∧
      (c.hub.device i).asking = 0 ∧ (c.hub.device i).pending = [] ∧
        (c.hub.device i).results = []) := by
  have hl := hc.kept
  refine ⟨fun i => ⟨hl.asking_add_away_le i, hl.asking_eq i, hl.census.live i, hl.census.away i⟩,
    fun a fault allowed hfault => hl.fault_eq allowed hfault, hl.empty_of_games_eq_nil⟩

/-- A game of clients of two devices asks one of them and is away from the other. -/
theorem books_balance_across_devices : ∃ c : Course, c.Reachable ∧ c.games = [(0, 1)] ∧
    (c.hub.device 0).asking = 1 ∧ (c.hub.device 0).pending = [] ∧ c.hub.taken 0 = 1 ∧
    (c.hub.device 1).away = 1 ∧
      (c.hub.device 1).asking + (c.hub.device 1).away ≤ (c.hub.device 1).live := by
  have h₀ : (start [.empty "cpu" 1, .empty "gpu" 2]).Reachable := by
    refine ⟨_, [], fun d hd => ?_, .rest⟩
    simp only [List.mem_cons, List.not_mem_nil, or_false] at hd
    rcases hd with rfl | rfl
    · exact ⟨"cpu", 1, rfl⟩
    · exact ⟨"gpu", 2, rfl⟩
  have h₁ := (h₀.act (a := .load 0 (fun _ _ => .ok .uniform) "uniform") trivial rfl).act
    (a := .load 1 (fun _ _ => .ok .uniform) "uniform") trivial rfl
  have h₂ := (h₁.act (a := .addClient 0 0) rfl rfl).act (a := .addClient 1 0) rfl rfl
  have h₃ := (h₂.act (a := .event (.startGame 0 1))
    ⟨by decide, by decide, by decide, by rintro g ⟨⟩, by rintro g ⟨⟩⟩ rfl).act
      (a := .event (.proceed 0)) trivial rfl
  have h₄ := h₃.act (a := .event (.request 0 [.initial .zero]))
    ⟨1, .inl List.mem_cons_self, rfl, rfl⟩ rfl
  have h₅ := (h₄.act (a := .event (.proceed 0)) trivial rfl).act
    (a := .event (.proceed 0)) trivial rfl
  obtain ⟨hle, -⟩ := h₅.books_balance.1 1
  exact ⟨_, h₅, rfl, rfl, rfl, rfl, rfl, hle⟩

end Course

end Goban
