import Goban.Match
import Goban.Proofs.Search.Readouts

/-!
# The inferences of players

A player counts the positions that its model is asked for, and nothing else: neither a move nor the
absorption of an answer changes its count. So a turn of a match adds the positions that were asked in
it to the count of the player whose turn it is (`Match.inferences_turn`). Nothing is assumed of the
answers.
-/

namespace Goban

namespace Player

variable {p p' : Player} {fits : List Position → List Evaluation → Prop}
  {asked : List (List Position)} {g g' : Game} {m : Move}

theorem inferences_search (hasks : p.search.Asks fits asked p') :
    p'.inferences = p.inferences + asked.flatten.length := by
  obtain ⟨leaves, tree, -, ⟨-, rfl, rfl⟩ | ⟨-, rfl, answers, -, hlength, habsorb⟩⟩ :=
    of_search hasks
  · rfl
  · obtain ⟨tree', state, rfl, -⟩ := of_absorbAll hlength habsorb
    rw [List.flatten_singleton, List.length_map]

theorem inferences_searchUntil {target steps : Nat}
    (hasks : (searchUntil target steps p).Asks fits asked p') :
    p'.inferences = p.inferences + asked.flatten.length := by
  induction steps generalizing p asked with
  | zero =>
    cases hasks
    rfl
  | succ steps ih =>
    rw [searchUntil] at hasks
    split at hasks
    · obtain ⟨p₁, before, after, hsearch, hrest, rfl⟩ := hasks.bind
      rw [ih hrest, inferences_search hsearch, List.flatten_append, List.length_append, Nat.add_assoc]
    · cases hasks
      rfl

theorem inferences_suggest {readouts : Nat}
    (hasks : (p.suggest g readouts).Asks fits asked (m, p')) :
    p'.inferences = p.inferences + asked.flatten.length := by
  obtain ⟨p₁, first, rest, hfirst, hrest, rfl, -⟩ := asks_of_suggest hasks
  have hroot : p₁.inferences = p.inferences + first.flatten.length := by
    split at hfirst
    · cases hfirst
      rfl
    · exact inferences_search hfirst
  rw [inferences_searchUntil hrest, hroot, List.flatten_append, List.length_append, Nat.add_assoc]

theorem inferences_advance (ok : p.advance m = .ok p') : p'.inferences = p.inferences := by
  rcases advance_cases ok with ⟨found, below, position, -, -, rfl⟩ | ⟨root, position, -, -, rfl⟩
  · exact inferences_descend p below position
  · rfl

theorem inferences_play (ok : p.play g m = (g', .ok p')) : p'.inferences = p.inferences := by
  rw [play_eq] at ok
  split at ok
  · cases ok
  · split at ok
    · cases ok
      rfl
    · exact inferences_advance (Prod.mk.inj ok).2

theorem inferences_follow (ok : p.follow m = .ok p') : p'.inferences = p.inferences := by
  rw [follow_eq] at ok
  split at ok
  · cases ok
  · exact inferences_advance ok

theorem inferences_new {modelName : String} {options : PlayerOptions} {noise : NoiseSource}
    {position : Position} (ok : new modelName options noise position = .ok p) :
    p.inferences = 0 := by
  unfold new at ok
  split at ok <;> cases ok
  rfl

end Player

namespace Match

variable {m m' : Match} {fits : List Position → List Evaluation → Prop}
  {asked : List (List Position)} {p : Player} {move : Move} {color : Color}

theorem inferences_choose {g : Game} {p' : Player} (hasks : (choose g p).Asks fits asked (move, p')) :
    p'.inferences = p.inferences + asked.flatten.length := by
  unfold choose at hasks
  split at hasks
  · cases hasks
    rfl
  · exact Player.inferences_suggest hasks

/-- Making a move changes neither count. -/
theorem inferences_commit (ok : m.commit move p = .ok m') (color : Color) :
    (m'.player color).inferences = ((m.withPlayer m.mover p).player color).inferences := by
  unfold commit at ok
  split at ok
  · cases ok
  · rename_i g p' hplay
    have hmover : p'.inferences = p.inferences := Player.inferences_play hplay
    have hmade : (({ m.withPlayer m.mover p' with game := g } : Match).player color).inferences =
        ((m.withPlayer m.mover p).player color).inferences := by
      cases hcolor : m.mover <;> cases color <;> first | exact hmover | rfl
    split at ok
    · cases ok
      exact hmade
    · simp only at ok
      split at ok
      · cases ok
      · rename_i opponent hfollow
        cases ok
        have hother := Player.inferences_follow hfollow
        rw [← hmade]
        by_cases hcolor : color = m.mover.other
        · subst hcolor
          rw [player_withPlayer]
          exact hother
        · rw [player_withPlayer_of_ne hcolor]

/-- A turn adds what was asked in it to the count of the player whose turn it is. -/
theorem inferences_turn {verbose : Bool} (hasks : (m.turn verbose).Asks fits asked m')
    (color : Color) : (m'.player color).inferences =
      (m.player color).inferences + if color = m.mover then asked.flatten.length else 0 := by
  unfold turn at hasks
  obtain ⟨⟨move, p⟩, before, after, hchoose, hrest, rfl⟩ := hasks.bind
  simp only at hrest
  obtain ⟨m₁, between, last, hcommit, hlast, rfl⟩ := hrest.bind
  obtain ⟨hmade, rfl⟩ := hcommit.of_except
  -- Reports are written before and after the move, and say nothing of the players.
  have hreported : ∃ log, (if verbose then { m with log := m.log.push p.describe } else m) =
      { m with log } := by
    split
    · exact ⟨_, rfl⟩
    · exact ⟨m.log, rfl⟩
  obtain ⟨log, hlog⟩ := hreported
  rw [hlog] at hmade
  have hafter : last = [] ∧ m'.player color = m₁.player color := by
    cases hlast
    refine ⟨rfl, ?_⟩
    split
    · exact player_withLog _ _ _
    · rfl
  obtain ⟨rfl, hplayer⟩ := hafter
  rw [hplayer, inferences_commit hmade color, List.append_nil, List.append_nil]
  by_cases hcolor : color = m.mover
  · subst hcolor
    rw [if_pos rfl, ← inferences_choose hchoose]
    exact congrArg Player.inferences (player_withPlayer _ _ _)
  · rw [if_neg hcolor, Nat.add_zero]
    refine congrArg Player.inferences ((player_withPlayer_of_ne hcolor _ p).trans ?_)
    exact player_withLog _ _ _

end Match

end Goban
