import Goban.Proofs.Batch.Frames

/-!
# Where the two clients of a thread stand

A thread is in one of few places of its game (`Seat`), and each of its own calls takes it from one to
the next: from outside into the game, from rest to asking and back, and out again. Nobody else moves
it (`Seats.frame`), but that a game is opened and closed by one of its clients, which may go on at
any time (`Seats.stray`).
-/

namespace Goban

/-- Where the two clients of a thread stand. -/
inductive Seat where
  /-- In no game. -/
  | outside
  /-- In a game that is being opened. -/
  | entering
  /-- In a game, with nothing under way. -/
  | resting
  /-- In a game, and the client of a color asks, or has its answer. -/
  | asking (color : Color) (positions : List Position)
  /-- In a game that is being closed. -/
  | leaving

namespace Seat

/-- The seats that follow without a call of the thread. -/
inductive Drifts : Seat → Seat → Prop where
  | stay (s : Seat) : Drifts s s
  | enter : Drifts entering resting
  | leave : Drifts leaving outside

end Seat

/-- What a thread neither does itself nor minds: clients go on with what they are about to do, batches
are taken from outside, and sleepers wake. -/
def Event.isStray : Event → Bool
  | .proceed _ | .flush _ | .runFlush _ | .stir _ => true
  | .startGame _ _ | .endGame _ _ | .request _ _ | .collect _ => false

namespace Course

/-- Whether the clients of a thread, one for each color, have a seat. -/
def Seats (c : Course) (of : Color → Nat) : Seat → Prop
  | .outside => ∀ color, c.IsFree (of color)
  | .entering => (of .black, of .white) ∈ c.games ∧
      (c.hub.client (of .black)).phase = .opening (of .white)
  | .resting => (of .black, of .white) ∈ c.games ∧ ∀ color, c.IsIdle (of color)
  | .asking color positions => (of .black, of .white) ∈ c.games ∧ c.IsIdle (of color.other) ∧
      c.asked (of color) = positions
  | .leaving => (of .black, of .white) ∈ c.games ∧
      (c.hub.client (of .black)).phase = .closing (of .white)

variable {c : Course} {of : Color → Nat} {e : Event} {hub : Hub} {s : Seat} {color : Color}
  {a b x y : Nat}

theorem isGame_of_color (h : (of .black, of .white) ∈ c.games) (color : Color) :
    c.IsGame (of color) (of color.other) := by
  cases color with
  | black => exact .inl h
  | white => exact .inr h

theorem gamesAfter_proceed (h : ∀ y, (c.hub.client x).phase ≠ .closing y) :
    c.gamesAfter (.proceed x) = c.games := by
  simp only [gamesAfter]

/-! ## What others do -/

theorem games_frame (h : (a, b) ∈ c.games) (ha : ¬ e.Concerns c.hub a)
    (hb : ¬ e.Concerns c.hub b) : (a, b) ∈ c.gamesAfter e := by
  have hwithout : ∀ x, a ≠ x → b ≠ x → (a, b) ∈ c.gamesWithout x := fun x hax hbx =>
    List.mem_filter.mpr ⟨h, by simp [hax, hbx]⟩
  cases e with
  | startGame x y => exact List.mem_cons_of_mem _ h
  | endGame x y =>
    simp only [gamesAfter]
    split
    · exact hwithout x (fun he => ha (.inl he)) (fun he => hb (.inl he))
    · exact h
  | proceed x =>
    simp only [gamesAfter]
    split
    · exact hwithout x (fun he => ha (.inl he)) (fun he => hb (.inl he))
    · exact h
  | request | collect | flush | runFlush | stir => exact h

theorem isFree_frame (h : c.IsFree a) (ha : ¬ e.Concerns c.hub a) :
    ∀ g ∈ c.gamesAfter e, g.1 ≠ a ∧ g.2 ≠ a := by
  have hwithout : ∀ x, ∀ g ∈ c.gamesWithout x, g.1 ≠ a ∧ g.2 ≠ a := fun x g hg =>
    h g (List.mem_filter.mp hg).1
  cases e with
  | startGame x y =>
    intro g hg
    rcases List.mem_cons.mp hg with rfl | hg
    · exact ⟨fun he => ha (.inl he.symm), fun he => ha (.inr he.symm)⟩
    · exact h g hg
  | endGame x y =>
    simp only [gamesAfter]
    split
    · exact hwithout x
    · exact h
  | proceed x =>
    simp only [gamesAfter]
    split
    · exact hwithout x
    · exact h
  | request | collect | flush | runFlush | stir => exact h

theorem phase_frame (ok : c.hub.act e = .ok hub) (ha : ¬ e.Concerns c.hub a) {p : Phase}
    (hp : p.ticket? = none) (h : (c.hub.client a).phase = p) : (hub.client a).phase = p := by
  rw [← Client.stirred_phase_eq_iff hp, (Hub.act_frame ok).others a ha,
    Client.stirred_phase_eq_iff hp]
  exact h

theorem asked_frame (ha : ¬ e.Concerns c.hub a) : c.askedAfter e a = c.asked a := by
  cases e with
  | request x positions => exact Function.update_of_ne ha _ _
  | startGame | endGame | proceed | collect | flush | runFlush | stir => rfl

namespace Seats

/-- Whoever is not concerned by an event keeps its seat. -/
theorem frame (h : c.Seats of s) (ok : c.hub.act e = .ok hub)
    (apart : ∀ color, ¬ e.Concerns c.hub (of color)) : (c.follow e hub).Seats of s := by
  have hgame : (of .black, of .white) ∈ c.games → (of .black, of .white) ∈ c.gamesAfter e :=
    fun h => games_frame h (apart _) (apart _)
  cases s with
  | outside => exact fun color => isFree_frame (h color) (apart color)
  | entering => exact ⟨hgame h.1, phase_frame ok (apart _) rfl h.2⟩
  | resting => exact ⟨hgame h.1, fun color => phase_frame ok (apart color) rfl (h.2 color)⟩
  | asking color positions =>
    exact ⟨hgame h.1, phase_frame ok (apart _) rfl h.2.1, (asked_frame (apart color)).trans h.2.2⟩
  | leaving => exact ⟨hgame h.1, phase_frame ok (apart _) rfl h.2⟩

/-- A seat is a matter of games, of requests and of phases that do not tell waiting from sleeping. -/
theorem calm (h : c.Seats of s) {c' : Course} (games : c'.games = c.games)
    (asked : c'.asked = c.asked) (phases : ∀ y p, p.ticket? = none →
      (c.hub.client y).phase = p → (c'.hub.client y).phase = p) : c'.Seats of s := by
  cases s with
  | outside => exact fun color g hg => h color g (games ▸ hg)
  | entering => exact ⟨games ▸ h.1, phases _ _ rfl h.2⟩
  | resting => exact ⟨games ▸ h.1, fun color => phases _ _ rfl (h.2 color)⟩
  | asking color positions => exact ⟨games ▸ h.1, phases _ _ rfl h.2.1, asked ▸ h.2.2⟩
  | leaving => exact ⟨games ▸ h.1, phases _ _ rfl h.2⟩

theorem stir (h : c.Seats of s) (x : Nat) : (c.follow (.stir x) (c.hub.stir x)).Seats of s := by
  refine h.calm rfl rfl fun y p hp hy => ?_
  show ((c.hub.stir x).client y).phase = p
  rcases Hub.client_changeClient_cases c.hub x y (fun c => c.rouse c.device) with hc | ⟨rfl, -, hc⟩
  · rw [Hub.stir, hc]
    exact hy
  · rw [Hub.stir, hc, Client.rouse_phase_eq_iff _ hp]
    exact hy

/-! ## What the clients do -/

/-- A client that waits for its thread or its partner does nothing. -/
theorem proceed_rest (h : c.Seats of s)
    (hp : (c.hub.client x).phase = .idle ∨ (c.hub.client x).phase = .held)
    (ok : c.hub.proceed x = .ok hub) : (c.follow (.proceed x) hub).Seats of s := by
  have hhub : hub = c.hub := by
    unfold Hub.proceed at ok
    rcases hp with hp | hp
    all_goals
      simp only [hp] at ok
      exact (Except.ok.inj ok).symm
  subst hhub
  refine h.calm ?_ rfl fun _ _ _ hy => hy
  refine gamesAfter_proceed fun y hy => ?_
  rw [hy] at hp
  rcases hp with hp | hp <;> cases hp

end Seats

section Partner

variable (hl : c.Kept) (hgame : (of .black, of .white) ∈ c.games)

include hl hgame

/-- Nobody else is in the game of a thread. -/
theorem Kept.partner (hg : c.IsGame x (of color)) : x = of color.other := by
  have once : ∀ {g}, g ∈ c.games → g.1 = of color ∨ g.2 = of color →
      g = (of .black, of .white) := fun hg hx =>
    eq_of_mem_game hl.census.once hg hgame hx (by cases color <;> simp)
  have hne : of .black ≠ of .white := fst_ne_snd hl.census.once hgame
  rcases hg with hg | hg
  · obtain ⟨h₁, h₂⟩ := Prod.mk.inj (once hg (.inr rfl))
    cases color with
    | black => exact absurd h₂ hne
    | white => exact h₁
  · obtain ⟨h₁, h₂⟩ := Prod.mk.inj (once hg (.inl rfl))
    cases color with
    | black => exact h₂
    | white => exact absurd h₁.symm hne

end Partner

namespace Seats

/-- Only the two clients of a game open or close it. -/
theorem apart_of_ne (h : c.Seats of s) (hl : c.Kept) (hx : ∀ color, x ≠ of color) (color : Color) :
    ¬ (Event.proceed x).Concerns c.hub (of color) := by
  have hno : ¬ c.IsGame x (of color) := by
    intro hg
    have hgame : s = .outside ∨ (of .black, of .white) ∈ c.games := by
      cases s with
      | outside => exact .inl rfl
      | entering | resting | asking | leaving => exact .inr h.1
    rcases hgame with rfl | hgame
    · rcases hg with hg | hg
      · exact (h color _ hg).2 rfl
      · exact (h color _ hg).1 rfl
    · exact hx _ (hl.partner hgame hg)
  rintro (he | hp | hp)
  · exact hx color he.symm
  · exact hno (.inl (hl.census.exists_opens hp).1)
  · exact hno (hl.census.exists_closes hp).1

/-- The client that opens a game brings both clients into it. -/
theorem proceed_entering (h : c.Seats of .entering) (hl : c.Kept)
    (ok : c.hub.proceed (of color) = .ok hub) :
    ∃ s, Seat.entering.Drifts s ∧ (c.follow (.proceed (of color)) hub).Seats of s := by
  obtain ⟨hgame, hp⟩ := h
  obtain ⟨-, ho⟩ := hl.census.exists_opens hp
  cases color with
  | white => exact ⟨_, .stay _, proceed_rest ⟨hgame, hp⟩ (.inr ho.held) ok⟩
  | black =>
    refine ⟨_, .enter, ?_, ?_⟩
    · show _ ∈ c.gamesAfter (.proceed (of .black))
      simp only [gamesAfter, hp]
      exact hgame
    · obtain rfl := Hub.proceed_of_opening hp ok
      obtain ⟨hblack, hwhite, -⟩ := Hub.client_enter
        (h := c.hub.register (c.hub.client (of .white)).device) (fst_ne_snd hl.census.once hgame)
        (hl.census.known_of_game (.inl hgame)) (hl.census.known_of_game (.inr hgame))
      intro color
      show (Hub.client _ (of color)).phase = _
      cases color with
      | black => exact congrArg Client.phase hblack
      | white => exact congrArg Client.phase hwhite

theorem isFree_gamesWithout (hl : c.Kept) (hgame : (of .black, of .white) ∈ c.games) :
    ∀ g ∈ c.gamesWithout (of .black), ∀ color, g.1 ≠ of color ∧ g.2 ≠ of color := by
  intro g hg color
  obtain ⟨hmem, hne⟩ := List.mem_filter.mp hg
  by_contra hmeet
  have hsame : g = (of .black, of .white) :=
    eq_of_mem_game hl.census.once hmem hgame (x := of color)
      (by by_contra hno; exact hmeet (not_or.mp hno)) (by cases color <;> simp)
  rw [hsame] at hne
  simp at hne

/-- The client that closes a game takes both clients out of it. -/
theorem proceed_leaving (h : c.Seats of .leaving) (hl : c.Kept)
    (ok : c.hub.proceed (of color) = .ok hub) :
    ∃ s, Seat.leaving.Drifts s ∧ (c.follow (.proceed (of color)) hub).Seats of s := by
  obtain ⟨hgame, hp⟩ := h
  obtain ⟨-, ho⟩ := hl.census.exists_closes hp
  cases color with
  | white => exact ⟨_, .stay _, proceed_rest ⟨hgame, hp⟩ (.inr ho.held) ok⟩
  | black =>
    refine ⟨_, .leave, fun color g hg => ?_⟩
    change g ∈ c.gamesAfter (.proceed (of .black)) at hg
    simp only [gamesAfter, hp] at hg
    exact isFree_gamesWithout hl hgame g hg color

/-- A client that asks goes on by itself, and its partner waits. -/
theorem proceed_asking {color' : Color} {positions : List Position}
    (h : c.Seats of (.asking color positions)) (hl : c.Kept)
    (ok : c.hub.proceed (of color') = .ok hub) :
    (c.follow (.proceed (of color')) hub).Seats of (.asking color positions) := by
  obtain ⟨hgame, hidle, hasked⟩ := h
  by_cases hcolor : color' = color
  swap
  · obtain rfl := Color.eq_other_of_ne hcolor
    exact proceed_rest ⟨hgame, hidle, hasked⟩ (.inl hidle) ok
  subst hcolor
  -- The game is neither opened nor closed by a client whose partner is idle.
  have hpartner : ∀ y, c.IsGame (of color') y → y = of color'.other := fun y hg =>
    hl.partner hgame hg.symm
  have hopening : ∀ y, (c.hub.client (of color')).phase ≠ .opening y := fun y hp => by
    obtain ⟨hg, ho⟩ := hl.census.exists_opens hp
    rw [hpartner y (.inl hg)] at ho
    cases hidle.symm.trans ho.held
  have hclosing : ∀ y, (c.hub.client (of color')).phase ≠ .closing y := fun y hp => by
    obtain ⟨hg, ho⟩ := hl.census.exists_closes hp
    rw [hpartner y hg] at ho
    cases hidle.symm.trans ho.held
  refine ⟨?_, ?_, hasked⟩
  · show _ ∈ c.gamesAfter (.proceed (of color'))
    rw [gamesAfter_proceed hclosing]
    exact hgame
  · have hne : of color'.other ≠ of color' := by
      have hne := fst_ne_snd hl.census.once hgame
      cases color' with
      | black => exact hne.symm
      | white => exact hne
    refine phase_frame (e := .proceed (of color')) ok ?_ rfl hidle
    rintro (he | hp | hp)
    · exact hne he
    · exact hopening _ hp
    · exact hclosing _ hp

theorem proceed (h : c.Seats of s) (hl : c.Kept) (ok : c.hub.proceed x = .ok hub) :
    ∃ s', s.Drifts s' ∧ (c.follow (.proceed x) hub).Seats of s' := by
  by_cases hx : ∀ color, x ≠ of color
  · exact ⟨s, .stay s, h.frame (e := .proceed x) ok (h.apart_of_ne hl hx)⟩
  obtain ⟨color, rfl⟩ := not_forall_not.mp hx
  cases s with
  | outside =>
    have hidle := (hl.census.free _ (Census.not_mem_members (h color))).1
    exact ⟨_, .stay _, h.proceed_rest (.inl hidle) ok⟩
  | entering => exact proceed_entering h hl ok
  | resting => exact ⟨_, .stay _, h.proceed_rest (.inl (h.2 color)) ok⟩
  | asking color positions => exact ⟨_, .stay _, proceed_asking h hl ok⟩
  | leaving => exact proceed_leaving h hl ok

/-- Without a call of the thread its clients keep their seat, or its game was opened or closed. -/
theorem stray (h : c.Seats of s) (hl : c.Kept) (he : e.isStray = true)
    (ok : c.hub.act e = .ok hub) : ∃ s', s.Drifts s' ∧ (c.follow e hub).Seats of s' := by
  cases e with
  | proceed x => exact h.proceed hl ok
  | flush i => exact ⟨s, .stay s, h.frame ok fun _ => id⟩
  | runFlush k => exact ⟨s, .stay s, h.frame ok fun _ => id⟩
  | stir x =>
    cases ok
    exact ⟨s, .stay s, h.stir x⟩
  | startGame | endGame | request | collect => cases he

/-! ## What the thread does -/

theorem startGame (hne : of .black ≠ of .white)
    (known : ∀ color, of color < c.hub.clients.size)
    (ok : c.hub.act (.startGame (of .black) (of .white)) = .ok hub) :
    (c.follow (.startGame (of .black) (of .white)) hub).Seats of .entering ∨
      (c.follow (.startGame (of .black) (of .white)) hub).Seats of .resting := by
  have hgame : (of .black, of .white) ∈
      c.gamesAfter (.startGame (of .black) (of .white)) := List.mem_cons_self
  rcases Hub.startGame_eq_ok ok with ⟨-, rfl⟩ | ⟨-, rfl⟩
  · obtain ⟨hblack, hwhite, -⟩ := Hub.client_enter
      (h := c.hub.register (c.hub.client (of .black)).device) hne (known .black) (known .white)
    refine .inr ⟨hgame, fun color => ?_⟩
    show (Hub.client _ (of color)).phase = _
    cases color with
    | black => exact congrArg Client.phase hblack
    | white => exact congrArg Client.phase hwhite
  · obtain ⟨hblack, -, -⟩ := Hub.client_setPhase_pair
      (h := c.hub.register (c.hub.client (of .black)).device) hne (known .black) (known .white)
      (.opening (of .white)) .held
    exact .inl ⟨hgame, congrArg Client.phase hblack⟩

theorem request {positions : List Position} (h : c.Seats of .resting) (hl : c.Kept)
    (ok : c.hub.act (.request (of color) positions) = .ok hub) :
    (c.follow (.request (of color) positions) hub).Seats of (.asking color positions) := by
  obtain ⟨hgame, hidle⟩ := h
  have hne : of color.other ≠ of color := by
    have hne := fst_ne_snd hl.census.once hgame
    cases color with
    | black => exact hne.symm
    | white => exact hne
  exact ⟨hgame, phase_frame ok hne rfl (hidle _), Function.update_self _ _ _⟩

theorem collect {positions : List Position} {answer : List Evaluation}
    (h : c.Seats of (.asking color positions)) (hl : c.Kept)
    (hcollect : c.hub.collect? (of color) = some (answer, hub)) :
    (c.follow (.collect (of color)) hub).Seats of .resting := by
  obtain ⟨hgame, hidle, -⟩ := h
  have hhub : hub = c.hub.setPhase (of color) .idle := by
    unfold Hub.collect? at hcollect
    split at hcollect
    · exact (Prod.mk.inj (Option.some.inj hcollect)).2.symm
    · cases hcollect
  refine ⟨hgame, fun color' => ?_⟩
  show (hub.client (of color')).phase = .idle
  rw [hhub, Hub.client_setPhase _ (hl.census.known_of_game (isGame_of_color hgame color))]
  split
  · rfl
  · rename_i hne
    obtain rfl := Color.eq_other_of_ne fun he => hne (congrArg of he)
    exact hidle

theorem endGame (h : c.Seats of .resting) (hl : c.Kept)
    (ok : c.hub.act (.endGame (of .black) (of .white)) = .ok hub) :
    (c.follow (.endGame (of .black) (of .white)) hub).Seats of .leaving ∨
      (c.follow (.endGame (of .black) (of .white)) hub).Seats of .outside := by
  obtain ⟨hgame, -⟩ := h
  have known := hl.census.known_of_game (.inl hgame)
  have known' := hl.census.known_of_game (.inr hgame)
  obtain ⟨hub', hun, ⟨hd, -⟩ | ⟨hd, rfl⟩⟩ := Hub.endGame_eq_ok ok
  · refine .inr fun color g hg => ?_
    change g ∈ c.gamesAfter (.endGame (of .black) (of .white)) at hg
    simp only [gamesAfter, if_pos hd] at hg
    exact isFree_gamesWithout hl hgame g hg color
  · have hframe : Hub.Frame (fun _ => True) c.hub hub' := .unregister hun
    have hsize : hub'.clients.size = c.hub.clients.size := hframe.size
    obtain ⟨hblack, -, -⟩ := Hub.client_setPhase_pair (h := hub')
      (fst_ne_snd hl.census.once hgame) (hsize ▸ known) (hsize ▸ known') (.closing (of .white)) .held
    refine .inl ⟨?_, congrArg Client.phase hblack⟩
    show _ ∈ c.gamesAfter (.endGame (of .black) (of .white))
    simp only [gamesAfter, if_neg hd]
    exact hgame

end Seats

end Course

end Goban
