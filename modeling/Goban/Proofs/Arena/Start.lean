import Goban.Proofs.Arena.Tracks
import Goban.Proofs.Batch.Chronicle

/-!
# The beginning of a run

A new arena has loaded both models, and a run of it has a worker for each game. Its hub is a course
in which nobody plays, and every worker is at the start of its match (`Run.tracked_of_start`). That
match, but for the names in it, is given by the configuration and the number of the game
(`Config.firstMatch`).
-/

namespace Goban

/-! ## The matches of a configuration -/

namespace Config

variable (config : Config) (game : Nat) (color : Color)

/-- The file of the model that plays a color in a game. -/
def pathOf : String :=
  if Arena.targetPlays game color then config.targetPath else config.evaluatedPath

def readoutsOf : Nat :=
  if Arena.targetPlays game color then config.targetReadouts else config.evaluatedReadouts

/-- The player of a color in a game, before the first move and without a name. -/
def firstPlayer : Player where
  modelName := ""
  options := { config.playerOptions (config.readoutsOf game color) with
    seed := playerSeed config.seed (.ofNat game) color }
  noise := Noise.dirichlet
  noiseState := playerSeed config.seed (.ofNat game) color
  tree := .root (.initial config.gameOptions.komi)
  inferences := 0

/-- The match of a game, before the first move and without names. -/
def firstMatch : Match where
  game := .fromPosition "" "" config.gameOptions (.initial config.gameOptions.komi)
  black := config.firstPlayer game .black
  white := config.firstPlayer game .white
  log := #[]

end Config

/-! ## Loading models -/

/-- Whether all models that can be loaded look at one position at a time, and say the same of it
whatever the device. -/
def Loader.Says (loader : Loader) (say : String → Position → Evaluation) : Prop :=
  ∀ path device model, loader path device = .ok model → ∀ ps, model.evaluate ps = ps.map (say path)

namespace Device

/-- Whether the models on a device say what is said of their files. -/
def Says (d : Device) (say : String → Position → Evaluation) : Prop :=
  ∀ l ∈ d.models, ∀ ps, l.model.evaluate ps = ps.map (say l.path)

variable {d d' : Device} {loader : Loader} {say : String → Position → Evaluation} {path : String}
  {key : ModelKey}

/-- A model that was loaded is found under its key, whether it was loaded before or not. -/
theorem says_of_load (ok : d.load loader path = .ok (key, d')) (hsay : loader.Says say)
    (hd : d.Says say) : d'.Says say ∧ ∃ l, d'.models[key]? = some l ∧ l.path = path := by
  obtain ⟨l, hl, hpath, -⟩ := exists_of_load ok
  refine ⟨?_, l, hl, hpath⟩
  rcases load_eq_ok ok with ⟨-, rfl⟩ | ⟨-, model, hmodel, -, rfl⟩
  · exact hd
  · intro l hl
    rcases List.mem_append.mp hl with hl | hl
    · exact hd l hl
    · rw [List.mem_singleton.mp hl]
      exact hsay path _ model hmodel

end Device

namespace Hub

theorem device_new (devices : List Device) (i : Nat) :
    (Hub.new devices).device i = devices.getD i default := by
  simp [Hub.new, device]

theorem new_set (devices : List Device) (i : Nat) (d : Device) :
    Hub.new (devices.set i d) = (Hub.new devices).setDevice i d := by
  simp [Hub.new, setDevice]

end Hub

/-- Whether the model of a contender is on its device, looks at one position at a time, and says so of
it. -/
def Contender.Speaks (x : Contender) (h : Hub) (voice : Position → Evaluation) : Prop :=
  ∃ l, (h.device x.device).models[x.key]? = some l ∧ ∀ ps, l.model.evaluate ps = ps.map voice

theorem Contender.Speaks.extend {x : Contender} {h h' : Hub} (he : h.Extends h')
    {voice : Position → Evaluation} (hx : x.Speaks h voice) : x.Speaks h' voice := by
  obtain ⟨l, hl, hvoice⟩ := hx
  exact ⟨l, he.getElem?_models hl, hvoice⟩

namespace Arena

variable {loader : Loader} {say : String → Position → Evaluation} {config : Config}
  {device : Nat} {path : String} {options : PlayerOptions} {devices devices' : List Device}
  {x : Contender} {ns : Array Notice}

/-- A contender is loaded by a load of its device. -/
theorem hub_loadContender
    (ok : loadContender loader device path options devices = .ok (x, devices', ns)) :
    Hub.new devices' = (Hub.new devices).load device loader path ∧
      devices'.length = devices.length := by
  unfold loadContender at ok
  simp only at ok
  cases hload : (devices.getD device default).load loader path with
  | error reason =>
    rw [hload] at ok
    cases ok
  | ok loaded =>
    rw [hload] at ok
    cases ok
    exact ⟨by rw [Hub.new_set, Hub.load, Hub.device_new, hload], List.length_set⟩

/-- The model of a contender that was loaded is the one of its file. -/
theorem loadContender_eq_ok (hsay : loader.Says say) (hdevices : ∀ d ∈ devices, d.Says say)
    (ok : loadContender loader device path options devices = .ok (x, devices', ns)) :
    (∀ d ∈ devices', d.Says say) ∧ x.options = options ∧ x.wins = .none ∧
      (device < devices.length → x.Speaks (Hub.new devices') (say path)) := by
  unfold loadContender at ok
  simp only at ok
  cases hload : (devices.getD device default).load loader path with
  | error reason =>
    rw [hload] at ok
    cases ok
  | ok loaded =>
    obtain ⟨key, d⟩ := loaded
    rw [hload] at ok
    cases ok
    have hold : (devices.getD device default).Says say := by
      rw [List.getD_eq_getElem?_getD]
      cases hd : devices[device]? with
      | none => exact fun l hl => by cases hl
      | some d => exact hdevices d (List.mem_of_getElem? hd)
    obtain ⟨hd, l, hl, hpath⟩ := Device.says_of_load hload hsay hold
    refine ⟨?_, rfl, rfl, fun hlt => ?_⟩
    · intro d' hd'
      rcases List.mem_or_eq_of_mem_set hd' with hmem | rfl
      · exact hdevices d' hmem
      · exact hd
    · refine ⟨l, ?_, fun ps => ?_⟩
      · show ((Hub.new (devices.set device d)).device device).models[key]? = some l
        rw [Hub.device_new, List.getD_eq_getElem?_getD, List.getElem?_set_self hlt]
        exact hl
      · rw [← hpath]
        exact hd l (List.mem_of_getElem? hl) ps

/-- An arena on whose hub nobody plays, and which has counted no wins yet. -/
structure Fresh (config : Config) (say : String → Position → Evaluation) (c : Course) (a : Arena) :
    Prop where
  reachable : c.Reachable
  hub : a.hub = c.hub
  games : c.games = []
  config_eq : a.config = config
  evaluated : a.evaluated.options = config.playerOptions config.evaluatedReadouts
  target : a.target.options = config.playerOptions config.targetReadouts
  wins : a.evaluated.wins = .none ∧ a.target.wins = .none
  speaks : a.evaluated.Speaks c.hub (say config.evaluatedPath) ∧
    a.target.Speaks c.hub (say config.targetPath)

/-- A new arena has made its devices and loaded a model for each contender. -/
theorem new_eq_ok {stamp : Stamp} {a : Arena} (made : Arena.new config loader stamp = (ns, .ok a)) :
    ∃ (names : List String) (i : Nat) (evaluated target : Contender)
        (devices devices' : List Device) (first second : Array Notice), config.buffers ≠ 0 ∧
      0 < names.length ∧ i < names.length ∧
      loadContender loader 0 config.evaluatedPath (config.playerOptions config.evaluatedReadouts)
        (names.map (Device.empty · config.buffers)) = .ok (evaluated, devices, first) ∧
      loadContender loader i config.targetPath (config.playerOptions config.targetReadouts) devices =
        .ok (target, devices', second) ∧
      a.config = config ∧ a.evaluated = evaluated ∧ a.target = target ∧ a.hub = .new devices' := by
  unfold Arena.new at made
  split at made
  · cases made
  rename_i hbuffers
  split at made
  · cases made
  simp only at made
  split at made
  · cases made
  rename_i evaluated devices first hfirst
  split at made
  · cases made
  rename_i target devices' second hsecond
  cases made
  refine ⟨_, _, _, _, _, _, _, _, hbuffers, ?_, ?_, hfirst, hsecond, rfl, rfl, rfl, rfl⟩
  · split <;> simp
  · split <;> simp

/-- The hub of a new arena is a course of two loads, in which nothing was handed out or called. -/
theorem course_of_new {stamp : Stamp} {a : Arena}
    (made : Arena.new config loader stamp = (ns, .ok a)) :
    ∃ c, Chronicle.Of ⟨[], []⟩ c ∧ a.hub = c.hub ∧ c.games = [] ∧ c.hub.clients.size = 0 := by
  obtain ⟨names, i, _, _, devices, devices', _, _, hbuffers, -, -, hfirst, hsecond, -, -, -, hhub⟩ :=
    new_eq_ok made
  obtain ⟨hload, -⟩ := hub_loadContender hfirst
  obtain ⟨hload', -⟩ := hub_loadContender hsecond
  have hstart : Chronicle.Of ⟨[], []⟩ (.start (names.map (Device.empty · config.buffers))) := by
    refine .start fun d hd => ?_
    obtain ⟨name, -, rfl⟩ := List.mem_map.mp hd
    exact ⟨name, config.buffers, by rw [Device.new, if_neg hbuffers]⟩
  have hcourse := (hstart.act (a := .load 0 loader config.evaluatedPath) trivial rfl).act
    (a := .load i loader config.targetPath) trivial rfl
  refine ⟨_, hcourse, ?_, rfl, ?_⟩
  · rw [hhub, hload', hload]
    rfl
  · show (((Course.start _).hub.load 0 loader config.evaluatedPath).load i loader
      config.targetPath).clients.size = 0
    rw [(Hub.Extends.load _ _ _ _).size, (Hub.Extends.load _ _ _ _).size]
    rfl

theorem fresh_of_new {stamp : Stamp} {a : Arena} (hsay : loader.Says say)
    (made : Arena.new config loader stamp = (ns, .ok a)) :
    ∃ c, a.Fresh config say c ∧ c.hub.clients.size = 0 := by
  obtain ⟨names, i, x, y, devices, devices', first, second, -, hpos, hlt, hfirst, hsecond,
    hconfig, rfl, rfl, hhub⟩ := new_eq_ok made
  have hempty : ∀ d ∈ names.map (Device.empty · config.buffers), d.Says say := by
    intro d hd l hl
    obtain ⟨name, -, rfl⟩ := List.mem_map.mp hd
    cases hl
  obtain ⟨-, hlength⟩ := hub_loadContender hfirst
  obtain ⟨hload', -⟩ := hub_loadContender hsecond
  obtain ⟨hdevices, hoptions, hwins, hspeaks⟩ := loadContender_eq_ok hsay hempty hfirst
  obtain ⟨-, hoptions', hwins', hspeaks'⟩ := loadContender_eq_ok hsay hdevices hsecond
  obtain ⟨c, hof, hc, hgames, hsize⟩ := course_of_new made
  refine ⟨c, ⟨hof.reachable, hc, hgames, hconfig, hoptions, hoptions', ⟨hwins, hwins'⟩, ?_⟩, hsize⟩
  rw [← hc, hhub]
  refine ⟨?_, hspeaks' (by rw [hlength]; simpa using hlt)⟩
  rw [hload']
  exact (hspeaks (by simpa using hpos)).extend (.load _ _ _ _)

variable {c : Course} {a a' : Arena} {game i : Nat} {color : Color} {key : ModelKey} {hub : Hub}
  {w : Worker}

namespace Fresh

theorem contender_speaks (h : a.Fresh config say c) (game : Nat) (color : Color) :
    (a.contender game color).Speaks c.hub (say (config.pathOf game color)) := by
  unfold contender Config.pathOf targetPlays
  split
  · exact h.speaks.2
  · exact h.speaks.1

theorem contender_options (h : a.Fresh config say c) (game : Nat) (color : Color) :
    (a.contender game color).options = config.playerOptions (config.readoutsOf game color) := by
  unfold contender Config.readoutsOf targetPlays
  split
  · exact h.target
  · exact h.evaluated

/-- A client is added to the hub of a fresh arena. -/
theorem addClient (h : a.Fresh config say c) {n : Nat}
    (ok : a.hub.addClient x.device x.key = .ok (n, hub)) :
    ({ a with hub } : Arena).Fresh config say { c with hub } ∧ n = c.hub.clients.size ∧
      hub.clients.size = c.hub.clients.size + 1 ∧
        (∀ voice, x.Speaks c.hub voice → x.Speaks hub voice ∧ hub.Speaks n voice) ∧
        ∀ y < c.hub.clients.size, ∀ voice, c.hub.Speaks y voice → hub.Speaks y voice := by
  rw [h.hub] at ok
  obtain ⟨hn, hallowed, hafter, hsize⟩ := Course.after_addClient ok
  obtain ⟨-, name, hhub⟩ := Hub.addClient_eq_ok ok
  have hclient : ∀ y, hub.client y =
      if y = c.hub.clients.size then ⟨x.device, x.key, name, false, none, .idle⟩
      else c.hub.client y := by
    intro y
    rw [hhub, Hub.client_push]
  have hdevice : ∀ j, hub.device j = c.hub.device j := fun j => by
    rw [hhub]
    rfl
  refine ⟨⟨h.reachable.act hallowed hafter, rfl, h.games, h.config_eq, h.evaluated, h.target, h.wins,
    ?_⟩, hn, hsize, fun voice hs => ?_, fun y hy voice hs => ?_⟩
  · obtain ⟨⟨l, hl, hvoice⟩, l', hl', hvoice'⟩ := h.speaks
    exact ⟨⟨l, by rw [hdevice]; exact hl, hvoice⟩, l', by rw [hdevice]; exact hl', hvoice'⟩
  · obtain ⟨l, hl, hvoice⟩ := hs
    refine ⟨⟨l, by rw [hdevice]; exact hl, hvoice⟩, l, ?_, hvoice⟩
    rw [hclient, if_pos hn, hdevice]
    exact hl
  · obtain ⟨l, hl, hvoice⟩ := hs
    refine ⟨l, ?_, hvoice⟩
    rw [hclient, if_neg (Nat.ne_of_lt hy), hdevice]
    exact hl

end Fresh

/-- A new player is the player of the configuration, but for its name. -/
theorem Fresh.unnamed_of_new {name : String} {p : Player} {seed : UInt64}
    (h : a.Fresh config say c) (hseed : seed = playerSeed config.seed (.ofNat game) color)
    (ok : Player.new name { (a.contender game color).options with seed } Noise.dirichlet
      (.initial config.gameOptions.komi) = .ok p) : p.unnamed = config.firstPlayer game color := by
  unfold Player.new at ok
  split at ok
  · cases ok
    subst hseed
    unfold Player.unnamed Config.firstPlayer
    rw [h.contender_options]
  · cases ok

/-- A new worker has two new clients and starts at the match of its game. -/
theorem newWorker_eq_ok (h : a.Fresh config say c)
    (ok : Run.newWorker a config.seed game = .ok (a', w)) :
    ∃ hub m, a' = { a with hub } ∧ a'.Fresh config say { c with hub } ∧
      w = ⟨game, c.hub.clients.size, c.hub.clients.size + 1, .fresh m⟩ ∧
        m.bare = config.firstMatch game ∧ hub.clients.size = c.hub.clients.size + 2 ∧
        (∀ y < c.hub.clients.size, ∀ voice, c.hub.Speaks y voice → hub.Speaks y voice) ∧
        hub.Speaks c.hub.clients.size (say (config.pathOf game .black)) ∧
          hub.Speaks (c.hub.clients.size + 1) (say (config.pathOf game .white)) := by
  obtain rfl := h.config_eq
  unfold Run.newWorker at ok
  simp only at ok
  obtain ⟨⟨x, hub⟩, hblack, ok⟩ := bind_eq_ok ok
  obtain ⟨⟨y, hub'⟩, hwhite, ok⟩ := bind_eq_ok ok
  obtain ⟨p, hp, ok⟩ := bind_eq_ok ok
  obtain ⟨q, hq, ok⟩ := bind_eq_ok ok
  cases ok
  obtain ⟨h₁, rfl, hsize₁, hnew₁, hold₁⟩ := h.addClient hblack
  obtain ⟨h₂, rfl, hsize₂, hnew₂, hold₂⟩ := h₁.addClient hwhite
  refine ⟨hub', _, rfl, h₂, by rw [← hsize₁], ?_, by rw [hsize₂, hsize₁], ?_, ?_, ?_⟩
  · rw [Match.bare, Config.firstMatch, h.unnamed_of_new rfl hp, h.unnamed_of_new rfl hq]
    rfl
  · intro y hy voice hs
    exact hold₂ y (by rw [hsize₁]; omega) voice (hold₁ y hy voice hs)
  · exact hold₂ _ (by rw [hsize₁]; omega) _ (hnew₁ _ (h.contender_speaks game .black)).2
  · rw [← hsize₁]
    exact (hnew₂ _ (h₁.contender_speaks game .white)).2

end Arena

namespace Run

/-! ## Making the workers -/

/-- The workers of the first games are made, and stand before their first steps. -/
structure SetUp (config : Config) (say : String → Position → Evaluation) (c : Course) (a : Arena)
    (workers : Array Worker) : Prop extends a.Fresh config say c where
  size : c.hub.clients.size = 2 * workers.size
  worker : ∀ i < workers.size, ∃ m,
    workers.getD i default = ⟨i, clientOf i .black, clientOf i .white, .fresh m⟩ ∧
      m.bare = config.firstMatch i
  clients : ∀ i < workers.size, ∀ color, c.hub.Speaks (clientOf i color) (say (config.pathOf i color))

variable {loader : Loader} {say : String → Position → Evaluation} {config : Config} {c : Course}
  {a a' : Arena} {workers workers' : Array Worker} {r : Run}

namespace SetUp

theorem push (h : SetUp config say c a workers) {w : Worker}
    (ok : newWorker a config.seed workers.size = .ok (a', w)) :
    ∃ c', SetUp config say c' a' (workers.push w) := by
  obtain ⟨hub, m, -, hfresh, rfl, hm, hsize, hold, hblack, hwhite⟩ :=
    Arena.newWorker_eq_ok h.toFresh ok
  rw [h.size] at hsize hold hblack hwhite
  have hlast : ∀ {i}, i < workers.size + 1 → i < workers.size ∨ i = workers.size :=
    Nat.lt_succ_iff_lt_or_eq.mp
  refine ⟨_, hfresh, ?_, fun i hi => ?_, fun i hi color => ?_⟩
  · rw [Array.size_push]
    show hub.clients.size = _
    omega
  · rw [Array.size_push] at hi
    rcases hlast hi with hlt | rfl
    · obtain ⟨m, hw, hm⟩ := h.worker i hlt
      refine ⟨m, ?_, hm⟩
      rw [← hw]
      simp [Array.getD_eq_getD_getElem?, Array.getElem?_push, Nat.ne_of_lt hlt]
    · refine ⟨m, ?_, hm⟩
      simp [Array.getD_eq_getD_getElem?, h.size, clientOf]
  · rw [Array.size_push] at hi
    rcases hlast hi with hlt | rfl
    · refine hold _ ?_ _ (h.clients i hlt color)
      cases color <;> simp only [clientOf] <;> omega
    · cases color with
      | black => exact hblack
      | white => exact hwhite

theorem newWorkers {count : Nat} (h : SetUp config say c a workers)
    (ok : Run.newWorkers config.seed count workers.size a workers = .ok (a', workers')) :
    ∃ c', SetUp config say c' a' workers' ∧ workers'.size = workers.size + count := by
  induction count generalizing c a workers with
  | zero =>
    cases ok
    exact ⟨c, h, rfl⟩
  | succ count ih =>
    rw [Run.newWorkers] at ok
    obtain ⟨⟨b, w⟩, hw, ok⟩ := bind_eq_ok ok
    obtain ⟨c', h'⟩ := h.push hw
    obtain ⟨c'', h'', hsize⟩ := ih h' (by rw [Array.size_push]; exact ok)
    refine ⟨c'', h'', ?_⟩
    rw [hsize, Array.size_push]
    omega

end SetUp

/-- At the beginning of a run every worker is on track, and nothing is counted. -/
theorem tracked_of_start {stamp : Stamp} {ns : Array Notice} {table : Option TableSpec}
    {clockSeed : UInt64} (hsay : loader.Says say)
    (made : Arena.new config loader stamp = (ns, .ok a)) (seeded : config.seed ≠ 0)
    (ok : start a table clockSeed = .ok r) :
    (∃ c, r.Tracked (fun game color => say (config.pathOf game color)) config.firstMatch c) ∧
      r.workers.size = config.parallelGames ∧
      (∀ i < r.workers.size, ∃ m, (r.worker i).stage = .fresh m) ∧
        r.arena.evaluated.wins = .none ∧ r.arena.target.wins = .none := by
  obtain ⟨c, hfresh, hsize⟩ := Arena.fresh_of_new hsay made
  obtain rfl := hfresh.config_eq
  unfold start at ok
  rw [if_neg seeded] at ok
  simp only at ok
  obtain ⟨⟨a', workers⟩, hworkers, ok⟩ := bind_eq_ok ok
  cases ok
  have hnone : SetUp a.config say c a #[] := ⟨hfresh, hsize, nofun, nofun⟩
  obtain ⟨c', h, hcount⟩ := hnone.newWorkers hworkers
  have hworker : ∀ i < workers.size, ∃ m, workers.getD i default =
      ⟨i, clientOf i .black, clientOf i .white, .fresh m⟩ ∧ m.bare = a.config.firstMatch i :=
    h.worker
  refine ⟨⟨c', ⟨h.reachable, h.hub, fun i hi => ?_, fun i hi => ?_, fun i hi color => ?_,
    h.clients⟩, fun i hi => ?_⟩, by simpa using hcount, fun i hi => ?_, h.wins⟩
  · obtain ⟨m, hw, -⟩ := hworker i hi
    rw [worker, hw]
  · obtain ⟨m, hw, -⟩ := hworker i hi
    rw [worker, hw]
    funext color
    cases color <;> rfl
  · rw [h.size]
    change i < workers.size at hi
    cases color <;> simp only [clientOf] <;> omega
  · obtain ⟨m, hw, hm⟩ := hworker i hi
    rw [worker, hw]
    exact .fresh (fun color g hg => by rw [h.games] at hg; cases hg) (.refl hm)
  · obtain ⟨m, hw, -⟩ := hworker i hi
    exact ⟨m, by rw [worker, hw]⟩

end Run

end Goban
