import Goban.Game.Record
import Goban.Proofs.Game.Faithful
import Goban.Proofs.Single.Decimals

/-!
# Records can be read back

A reader of game records that knows nothing of the writer: `scan` cuts the text into tokens, where a
value ends at the first closing bracket that no backslash escapes and an escaped character stands for
itself, and `group` collects the tokens to nodes. Whatever the names and the comments are, the record
of a game is read as its names, its result, its comments and its moves (`Game.record_reads`).

The one thing that protects the free texts is `escape`; `scan_escape` says that it does. All other
values are written as they stand, and need no protection (`IsPlain`): the komi, the result and the
places of the moves have no character that `escape` would change.
-/

namespace Goban

namespace Reading

/-! ## The reader -/

/-- What the characters of a record stand for. -/
inductive Token where
  | opening
  | closing
  | node
  | name (letters : List Char)
  | value (text : List Char)
deriving DecidableEq, Repr

/-- Where in a record a character stands: between values, in a value, or after a backslash that
escapes it. -/
inductive Place where
  | between
  | inside
  | escaped

/-- One more character at the front of the value that comes first. -/
def prepend (c : Char) : List Token → List Token
  | .value text :: rest => .value (c :: text) :: rest
  | tokens => tokens

/-- One more letter at the front, of the name that comes first if the letter is joined to it. -/
def letter (c : Char) : Bool → List Token → List Token
  | true, .name letters :: rest => .name (c :: letters) :: rest
  | _, tokens => .name [c] :: tokens

/-- The tokens of a text. -/
def scan : Place → List Char → Option (List Token)
  | .between, [] => some []
  | .between, c :: rest =>
    if c = '(' then (scan .between rest).map (.opening :: ·)
    else if c = ')' then (scan .between rest).map (.closing :: ·)
    else if c = ';' then (scan .between rest).map (.node :: ·)
    else if c = '[' then scan .inside rest
    else if c.isUpper then (scan .between rest).map (letter c (rest.head?.any Char.isUpper))
    else if Text.isBlank c then scan .between rest
    else none
  | .inside, c :: rest =>
    if c = ']' then (scan .between rest).map (.value [] :: ·)
    else if c = '\\' then scan .escaped rest
    else (scan .inside rest).map (prepend c)
  | .escaped, c :: rest => (scan .inside rest).map (prepend c)
  | _, [] => none

/-- The properties of a node, each with its values. -/
abbrev Node := List (String × List String)

/-- What the end of a record holds: values without their name, properties without their node, and
whole nodes. -/
structure Pending where
  values : List String
  properties : Node
  nodes : List Node

/-- The nodes of a record without variations, from the tokens after its opening. -/
def group : List Token → Option Pending
  | [] => none
  | .closing :: rest => if rest = [] then some ⟨[], [], []⟩ else none
  | .value text :: rest => (group rest).map fun p =>
    { p with values := String.ofList text :: p.values }
  | .name letters :: rest => (group rest).bind fun p =>
    if p.values = [] then none
    else some ⟨[], (String.ofList letters, p.values) :: p.properties, p.nodes⟩
  | .node :: rest => (group rest).bind fun p =>
    if p.values = [] then some ⟨[], [], p.properties :: p.nodes⟩ else none
  | .opening :: _ => none

/-- The nodes of a record. -/
def read (text : String) : Option (List Node) :=
  (scan .between text.toList).bind fun
    | .opening :: rest => (group rest).bind fun p =>
      if p.values = [] ∧ p.properties = [] then some p.nodes else none
    | _ => none

namespace Node

/-- The values of a property. -/
def values (name : String) (node : Node) : List String :=
  (node.filter (·.1 = name)).flatMap (·.2)

def withoutComment (node : Node) : Node := node.filter (·.1 ≠ "C")

/-- The color that a letter names. -/
def color? : String → Option Color
  | "B" => some .black
  | "W" => some .white
  | _ => none

/-- The move at a place: two small letters for the column and the row, or nothing for a pass. -/
def move? (place : List Char) : Option Move :=
  match place with
  | [] => some .pass
  | [x, y] =>
    if h : y.toNat - 97 < side ∧ x.toNat - 97 < side then
      some (.stone (Point.ofRowColumn (y.toNat - 97) (x.toNat - 97) h.1 h.2))
    else none
  | _ => none

/-- The move of a node, with its comment if it has one. -/
def turn? (node : Node) : Option Turn :=
  match node with
  | [(color, [place])] => do return ⟨← color? color, ← move? place.toList, ""⟩
  | [(color, [place]), ("C", [comment])] =>
    do return ⟨← color? color, ← move? place.toList, comment⟩
  | _ => none

end Node

/-! ## Reading what is written -/

variable {name value : String} {cs rest : List Char} {c : Char}

/-- The escaped characters of a text are read back, and the value ends with them. -/
theorem scan_escape (cs rest : List Char) : scan .inside (Game.escape cs ++ ']' :: rest) =
    (scan .between rest).map (.value cs :: ·) := by
  induction cs with
  | nil => simp [Game.escape, scan]
  | cons c cs ih =>
    have hprepend : ((scan .between rest).map (Token.value cs :: ·)).map (prepend c) =
        (scan .between rest).map (.value (c :: cs) :: ·) := by
      rw [Option.map_map]
      rfl
    rw [Game.escape]
    split
    · rw [List.cons_append, List.cons_append, scan, if_neg (by decide), if_pos rfl, scan, ih,
        hprepend]
    · rename_i hplain
      rw [not_or] at hplain
      rw [List.cons_append, scan, if_neg hplain.1, if_neg hplain.2, ih, hprepend]

theorem scan_letter (h : c.isUpper = true) (rest : List Char) : scan .between (c :: rest) =
    (scan .between rest).map (letter c (rest.head?.any Char.isUpper)) := by
  have hne : ∀ d : Char, d.isUpper = false → c ≠ d := by
    rintro d hd rfl
    rw [h] at hd
    cases hd
  rw [scan, if_neg (hne _ rfl), if_neg (hne _ rfl), if_neg (hne _ rfl), if_neg (hne _ rfl), if_pos h]

/-- The name of a property is made of capital letters. -/
def IsName (name : String) : Prop := name.toList ≠ [] ∧ ∀ c ∈ name.toList, c.isUpper = true

instance (name : String) : Decidable (IsName name) :=
  decidable_of_iff ((!name.toList.isEmpty && name.toList.all Char.isUpper) = true) (by simp [IsName])

theorem scan_name (hne : cs ≠ []) (hupper : ∀ c ∈ cs, c.isUpper = true) (rest : List Char) :
    scan .between (cs ++ '[' :: rest) = (scan .inside rest).map (.name cs :: ·) := by
  induction cs with
  | nil => exact absurd rfl hne
  | cons c cs ih =>
    rw [List.cons_append, scan_letter (hupper c List.mem_cons_self)]
    cases cs with
    | nil =>
      rw [List.nil_append, scan, if_neg (by decide), if_neg (by decide), if_neg (by decide),
        if_pos rfl]
      rfl
    | cons d cs =>
      have hd : d.isUpper = true := hupper d (by simp)
      rw [ih (by simp) fun x hx => hupper x (List.mem_cons_of_mem _ hx), Option.map_map,
        List.cons_append, List.head?_cons, Option.any_some, hd]
      rfl

/-- The characters of a property and its value. -/
def written (p : String × String) : List Char := p.1.toList ++ '[' :: Game.escape p.2.toList ++ [']']

theorem toList_property (name value : String) :
    (Game.property name value).toList = written (name, value) := by
  simp [Game.property, Game.plainProperty, written]

/-- A text without characters that are escaped. -/
def IsPlain (text : String) : Prop := ∀ c ∈ text.toList, c ≠ ']' ∧ c ≠ '\\'

theorem escape_of_plain (h : ∀ c ∈ cs, c ≠ ']' ∧ c ≠ '\\') : Game.escape cs = cs := by
  induction cs with
  | nil => rfl
  | cons c cs ih =>
    obtain ⟨hbracket, hslash⟩ := h c List.mem_cons_self
    rw [Game.escape, if_neg (not_or.mpr ⟨hbracket, hslash⟩),
      ih fun d hd => h d (List.mem_cons_of_mem _ hd)]

theorem IsPlain.of_all (h : (value.toList.all fun c => c != ']' && c != '\\') = true) :
    IsPlain value := by
  simpa [IsPlain] using h

theorem IsPlain.append {text : String} (h : IsPlain value) (h' : IsPlain text) :
    IsPlain (value ++ text) := by
  intro c hc
  rw [String.toList_append] at hc
  exact (List.mem_append.mp hc).elim (h c) (h' c)

/-- The text of a number needs no escape. -/
theorem isPlain_of_isNumeric (h : Single.IsNumeric value) : IsPlain value := by
  intro c hc
  have hnumeric := h c hc
  constructor <;>
  · rintro rfl
    exact absurd hnumeric (by decide)

/-- A value without characters that are escaped may stand as it is. -/
theorem toList_plainProperty (name : String) (h : IsPlain value) :
    (Game.plainProperty name value).toList = written (name, value) := by
  rw [written, escape_of_plain h]
  simp [Game.plainProperty]

/-- Properties that have one value each. -/
def single (facts : List (String × String)) : Node := facts.map fun p => (p.1, [p.2])

def tokens (facts : List (String × String)) : List Token :=
  facts.flatMap fun p => [.name p.1.toList, .value p.2.toList]

variable {facts : List (String × String)} {nodes : List (List (String × String))}

theorem scan_facts (hnames : ∀ p ∈ facts, IsName p.1) (rest : List Char) :
    scan .between (facts.flatMap written ++ rest) =
      (scan .between rest).map (tokens facts ++ ·) := by
  induction facts with
  | nil => simp [tokens]
  | cons p facts ih =>
    obtain ⟨hne, hupper⟩ := hnames p List.mem_cons_self
    have hrest := ih fun q hq => hnames q (List.mem_cons_of_mem _ hq)
    rw [List.flatMap_cons, written]
    simp only [List.append_assoc, List.cons_append, List.nil_append]
    rw [scan_name hne hupper, scan_escape, hrest, Option.map_map, Option.map_map]
    rfl

theorem group_facts {p : Pending} {ts : List Token} (h : group ts = some p) (hp : p.values = [])
    (facts : List (String × String)) :
    group (tokens facts ++ ts) = some ⟨[], single facts ++ p.properties, p.nodes⟩ := by
  induction facts with
  | nil =>
    obtain ⟨values, properties, nodes⟩ := p
    cases hp
    exact h
  | cons q facts ih =>
    have hgroup : group (.value q.2.toList :: (tokens facts ++ ts)) =
        some ⟨[q.2], single facts ++ p.properties, p.nodes⟩ := by
      rw [group, ih, Option.map_some, String.ofList_toList]
    show group (.name q.1.toList :: .value q.2.toList :: (tokens facts ++ ts)) = _
    rw [group, hgroup, Option.bind_some, if_neg (List.cons_ne_nil _ _), String.ofList_toList]
    rfl

/-- A node on a line of its own. -/
def line (facts : List (String × String)) : List Char := '\n' :: ';' :: facts.flatMap written

theorem scan_lines (hnames : ∀ facts ∈ nodes, ∀ p ∈ facts, IsName p.1) :
    scan .between (nodes.flatMap line ++ [')', '\n']) =
      some (nodes.flatMap (fun facts => .node :: tokens facts) ++ [.closing]) := by
  induction nodes with
  | nil => rfl
  | cons facts nodes ih =>
    have hrest := ih fun x hx => hnames x (List.mem_cons_of_mem _ hx)
    rw [List.flatMap_cons, line]
    simp only [List.cons_append, List.append_assoc]
    have hnewline : ∀ rest, scan .between ('\n' :: ';' :: rest) =
        (scan .between rest).map (.node :: ·) := fun rest => rfl
    rw [hnewline, scan_facts (hnames facts List.mem_cons_self), hrest]
    simp

theorem group_lines (nodes : List (List (String × String))) :
    group (nodes.flatMap (fun facts => .node :: tokens facts) ++ [.closing]) =
      some ⟨[], [], nodes.map single⟩ := by
  induction nodes with
  | nil => rfl
  | cons facts nodes ih =>
    rw [List.flatMap_cons, List.append_assoc, List.cons_append, group, group_facts ih rfl]
    simp

/-- A record with one node and then one on each line is read as these nodes. -/
theorem read_written (hfacts : ∀ p ∈ facts, IsName p.1)
    (hnames : ∀ facts ∈ nodes, ∀ p ∈ facts, IsName p.1) {text : String}
    (htext : text.toList = '(' :: ';' :: (facts.flatMap written ++ (nodes.flatMap line ++ [')', '\n']))) :
    read text = some (single facts :: nodes.map single) := by
  have hopening : ∀ rest, scan .between ('(' :: ';' :: rest) =
      (scan .between rest).map (.opening :: .node :: ·) := by
    intro rest
    show ((scan .between rest).map (Token.node :: ·)).map (Token.opening :: ·) = _
    rw [Option.map_map]
    rfl
  have hscan : scan .between text.toList = some (.opening :: .node :: (tokens facts ++
      (nodes.flatMap (fun facts => .node :: tokens facts) ++ [.closing]))) := by
    rw [htext, hopening, scan_facts hfacts, scan_lines hnames]
    rfl
  have hgroup : group (.node :: (tokens facts ++
      (nodes.flatMap (fun facts => .node :: tokens facts) ++ [.closing]))) =
        some ⟨[], [], single facts :: nodes.map single⟩ := by
    rw [group, group_facts (group_lines nodes) rfl]
    simp
  rw [read, hscan, Option.bind_some]
  show (group _).bind _ = _
  rw [hgroup]
  rfl

end Reading

/-- An escaped bracket stays in its value, one in a comment starts no property. -/
example : Reading.read "(;PB[a\\]b]\n;B[ee]C[W[aa\\]])" =
    some [[("PB", ["a]b"])], [("B", ["ee"]), ("C", ["W[aa]"])]] := by decide

namespace Game

open Reading

variable {g : Game} {t : Turn} {withComments : Bool}

/-! ## What is written -/

/-- A comment as a property, if comments are wanted and there is one. -/
def remark (wanted : Bool) (comment : String) : List (String × String) :=
  if wanted then [("C", comment)] else []

/-- The properties of the game as a whole. -/
def facts (withComments : Bool) (g : Game) : List (String × String) :=
  [("GM", "1"), ("FF", "4"), ("CA", "UTF-8"), ("AP", programName), ("RU", "Chinese"),
    ("SZ", toString side), ("KM", g.position.komi.shortest), ("PB", g.blackName),
    ("PW", g.whiteName), ("RE", g.resultText)] ++
  remark (withComments && !g.comments.isEmpty) ("\n".intercalate g.comments)

/-- Where a move is made, in two letters or none. -/
def place : Move → String
  | .stone p => String.ofList [Move.smallLetter p.column, Move.smallLetter p.row]
  | _ => ""

/-- The properties of a move. -/
def turnFacts (withComments : Bool) (t : Turn) : List (String × String) :=
  (t.color.letter, place t.move) :: remark (withComments && !t.comment.isEmpty) t.comment

theorem smallLetter_spec {n : Nat} (hn : n < side) :
    (Move.smallLetter n).toNat - 97 = n ∧ Move.smallLetter n ≠ ']' ∧ Move.smallLetter n ≠ '\\' := by
  have hall : ∀ n < 9, (Move.smallLetter n).toNat - 97 = n ∧ Move.smallLetter n ≠ ']' ∧
      Move.smallLetter n ≠ '\\' := by decide
  exact hall n hn

theorem isPlain_place (m : Move) : IsPlain (place m) := by
  cases m with
  | stone p =>
    intro c hc
    rw [place, String.toList_ofList] at hc
    rcases List.mem_pair.mp hc with rfl | rfl
    · exact (smallLetter_spec p.column_lt).2
    · exact (smallLetter_spec p.row_lt).2
  | pass => exact .of_all rfl
  | resign => exact .of_all rfl

theorem isPlain_resultText (g : Game) : IsPlain g.resultText := by
  have hletter : ∀ color : Color, IsPlain color.letter := fun color => by
    cases color <;> exact .of_all rfl
  unfold resultText
  split
  · exact .of_all rfl
  · split
    · exact (hletter _).append (.of_all rfl)
    · exact ((hletter _).append (.of_all rfl)).append
        (isPlain_of_isNumeric (Single.isNumeric_fixed 1 _))

theorem recordText_eq {m : Move} (h : m ≠ .resign) : m.recordText = .ok (place m) := by
  cases m with
  | stone p => rfl
  | pass => rfl
  | resign => exact absurd rfl h

theorem toList_header (g : Game) :
    g.header.toList = '(' :: ';' :: (g.facts false).flatMap written := by
  have hstart : "(;GM[1]FF[4]CA[UTF-8]".toList =
      '(' :: ';' :: (written ("GM", "1") ++ written ("FF", "4") ++ written ("CA", "UTF-8")) := by
    decide
  have hkomi : IsPlain g.position.komi.shortest :=
    isPlain_of_isNumeric (Single.isNumeric_shortest _)
  have hprogram : IsPlain programName := .of_all rfl
  have hrules : IsPlain "Chinese" := .of_all rfl
  have hsize : IsPlain (toString side) := .of_all rfl
  unfold header facts remark
  simp only [String.toList_append, toList_property, toList_plainProperty _ hprogram,
    toList_plainProperty _ hrules, toList_plainProperty _ hsize, toList_plainProperty _ hkomi,
    toList_plainProperty _ (isPlain_resultText g), hstart]
  simp

theorem toList_remark (wanted : Bool) (comment : String) :
    (if wanted then property "C" comment else "").toList =
      (remark wanted comment).flatMap written := by
  unfold remark
  split
  · simp [toList_property]
  · rfl

theorem turnText_eq (withComments : Bool) (h : t.move ≠ .resign) :
    ∃ text, turnText withComments t = .ok text ∧ text.toList = line (turnFacts withComments t) := by
  refine ⟨"\n;" ++ plainProperty t.color.letter (place t.move) ++
    commentText withComments t.comment, ?_, ?_⟩
  · rw [turnText, recordText_eq h]
    rfl
  · simp only [commentText, String.toList_append, toList_remark, line, turnFacts,
      List.flatMap_cons, toList_plainProperty _ (isPlain_place t.move)]
    simp

theorem turnTexts_eq (withComments : Bool) {turns : List Turn}
    (h : ∀ t ∈ turns, t.move ≠ .resign) :
    ∃ texts, turns.mapM (turnText withComments) = .ok texts ∧
      (String.join texts).toList = (turns.map (turnFacts withComments)).flatMap line := by
  induction turns with
  | nil => exact ⟨[], rfl, rfl⟩
  | cons t turns ih =>
    obtain ⟨text, htext, hline⟩ := turnText_eq withComments (h t List.mem_cons_self)
    obtain ⟨texts, htexts, hlines⟩ := ih fun u hu => h u (List.mem_cons_of_mem _ hu)
    refine ⟨text :: texts, ?_, ?_⟩
    · rw [List.mapM_cons, htext, htexts]
      rfl
    · rw [String.join_cons, String.toList_append, hline, hlines]
      rfl

/-- Without a resignation among the moves there is a record. -/
theorem record_eq (withComments : Bool) (h : ∀ t ∈ g.turns, t.move ≠ .resign) :
    ∃ text, g.record withComments = .ok text ∧ text.toList =
      '(' :: ';' :: ((g.facts withComments).flatMap written ++
        ((g.turns.map (turnFacts withComments)).flatMap line ++ [')', '\n'])) := by
  obtain ⟨texts, htexts, hlines⟩ := turnTexts_eq withComments h
  have hfacts : g.facts withComments = g.facts false ++
      remark (withComments && !g.comments.isEmpty) ("\n".intercalate g.comments) := by
    simp [facts, remark]
  refine ⟨_, by rw [record, htexts]; rfl, ?_⟩
  simp only [String.toList_append, toList_header, toList_remark, hlines, hfacts,
    List.flatMap_append]
  simp

/-! ## What is read -/

theorem isName_remark (wanted : Bool) (comment : String) :
    ∀ p ∈ remark wanted comment, IsName p.1 := by
  unfold remark
  intro p hp
  split at hp
  · rw [List.mem_singleton.mp hp]
    show IsName "C"
    decide
  · cases hp

theorem isName_facts (withComments : Bool) (g : Game) : ∀ p ∈ g.facts withComments, IsName p.1 := by
  intro p hp
  rcases List.mem_append.mp hp with hp | hp
  · have hall : ∀ name ∈ ["GM", "FF", "CA", "AP", "RU", "SZ", "KM", "PB", "PW", "RE"],
        IsName name := by decide
    exact hall p.1 (List.mem_map_of_mem (f := Prod.fst) hp)
  · exact isName_remark _ _ p hp

theorem isName_turnFacts (withComments : Bool) (t : Turn) :
    ∀ p ∈ turnFacts withComments t, IsName p.1 := by
  intro p hp
  rcases List.mem_cons.mp hp with rfl | hp
  · have hall : ∀ color : Color, IsName color.letter := by
      rintro ⟨⟩ <;> decide
    exact hall t.color
  · exact isName_remark _ _ p hp

theorem read_record (withComments : Bool) (h : ∀ t ∈ g.turns, t.move ≠ .resign) :
    ∃ text, g.record withComments = .ok text ∧ read text =
      some (single (g.facts withComments) ::
        (g.turns.map (turnFacts withComments)).map single) := by
  obtain ⟨text, hrecord, htext⟩ := record_eq withComments h
  refine ⟨text, hrecord, read_written (isName_facts withComments g) ?_ htext⟩
  intro facts hfacts
  obtain ⟨t, -, rfl⟩ := List.mem_map.mp hfacts
  exact isName_turnFacts withComments t

theorem move?_place {m : Move} (h : m ≠ .resign) : Node.move? (place m).toList = some m := by
  cases m with
  | stone p =>
    have hx := (smallLetter_spec p.column_lt).1
    have hy := (smallLetter_spec p.row_lt).1
    have hp : Point.ofRowColumn p.row p.column p.row_lt p.column_lt = p :=
      Fin.ext (Nat.div_add_mod' p.val side)
    simp only [place, String.toList_ofList, Node.move?, hx, hy]
    rw [dif_pos ⟨p.row_lt, p.column_lt⟩, hp]
  | pass => rfl
  | resign => exact absurd rfl h

theorem color?_letter (color : Color) : Node.color? color.letter = some color := by
  cases color <;> rfl

theorem turn?_turnFacts (h : t.move ≠ .resign) :
    Node.turn? (single (turnFacts true t)) = some t := by
  obtain ⟨color, m, comment⟩ := t
  have hmove : Node.move? (place m).toList = some m := move?_place h
  unfold turnFacts remark single
  by_cases hempty : comment.isEmpty = true
  · rw [String.isEmpty_iff.mp hempty]
    simp [Node.turn?, color?_letter, hmove]
  · simp [Node.turn?, color?_letter, hmove, hempty]

theorem values_single (name : String) (facts : List (String × String)) :
    (single facts).values name = (facts.filter (·.1 = name)).map (·.2) := by
  induction facts with
  | nil => rfl
  | cons p facts ih =>
    unfold Node.values single at ih ⊢
    by_cases hp : p.1 = name <;> simp [hp, ih]

theorem mem_remark {wanted : Bool} {comment : String} {p : String × String} :
    p ∈ remark wanted comment ↔ wanted = true ∧ p = ("C", comment) := by
  unfold remark
  cases wanted <;> simp

/-- The node of a move has its color and perhaps a comment, and nothing else. -/
theorem values_turnFacts {name : String} (hname : name ∉ ["B", "W", "C"]) (withComments : Bool)
    (t : Turn) : (single (turnFacts withComments t)).values name = [] := by
  rw [values_single, List.map_eq_nil_iff, List.filter_eq_nil_iff]
  intro p hp
  rw [decide_eq_true_eq]
  rintro rfl
  apply hname
  rcases List.mem_cons.mp hp with rfl | hp
  · cases t.color <;> simp [Color.letter]
  · rw [(mem_remark.mp hp).2]
    simp

theorem values_facts {name : String} (hname : name ≠ "C") (g : Game) :
    (single (g.facts true)).values name = (single (g.facts false)).values name := by
  have hremark : ∀ wanted comment, (remark wanted comment).filter (·.1 = name) = [] := by
    intro wanted comment
    rw [List.filter_eq_nil_iff]
    intro p hp
    rw [(mem_remark.mp hp).2, decide_eq_true_eq]
    exact Ne.symm hname
  rw [values_single, values_single, facts, facts, List.filter_append, List.filter_append, hremark,
    hremark]

theorem withoutComment_remark (wanted : Bool) (comment : String) :
    (single (remark wanted comment)).withoutComment = [] := by
  unfold remark
  cases wanted <;> rfl

theorem withoutComment_append (facts more : List (String × String)) :
    (single (facts ++ more)).withoutComment =
      (single facts).withoutComment ++ (single more).withoutComment := by
  simp [single, Node.withoutComment]

theorem withoutComment_facts (g : Game) :
    (single (g.facts true)).withoutComment = single (g.facts false) := by
  unfold facts
  rw [withoutComment_append, withoutComment_remark]
  rfl

theorem withoutComment_turnFacts (t : Turn) :
    (single (turnFacts true t)).withoutComment = single (turnFacts false t) := by
  unfold turnFacts
  rw [← List.singleton_append, withoutComment_append, withoutComment_remark]
  cases t.color <;> rfl

theorem names_enter (g : Game) (entry : Entry) :
    (g.enter entry).blackName = g.blackName ∧ (g.enter entry).whiteName = g.whiteName := by
  cases entry with
  | comment text => exact ⟨rfl, rfl⟩
  | move m comment =>
    cases hadd : g.add m comment with
    | ok g' =>
      rw [enter_of_add hadd]
      obtain ⟨-, ⟨-, rfl⟩ | ⟨next, -, rfl⟩⟩ := add_eq_ok hadd
      · exact ⟨rfl, rfl⟩
      · unfold moved
        simp only
        split <;> exact ⟨rfl, rfl⟩
    | error refusal =>
      have hsame : g.enter (.move m comment) = g := by
        rw [enter_move, hadd]
        rfl
      rw [hsame]
      exact ⟨rfl, rfl⟩

theorem names_enters (g : Game) (entries : List Entry) :
    (entries.foldl enter g).blackName = g.blackName ∧
      (entries.foldl enter g).whiteName = g.whiteName := by
  induction entries generalizing g with
  | nil => exact ⟨rfl, rfl⟩
  | cons entry entries ih =>
    obtain ⟨hblack, hwhite⟩ := names_enter g entry
    exact ⟨(ih _).1.trans hblack, (ih _).2.trans hwhite⟩

/-- What the nodes of a record say about a game. -/
structure Reads (blackName whiteName : String) (g : Game) (nodes : List Node) : Prop where
  black : nodes.flatMap (·.values "PB") = [blackName]
  white : nodes.flatMap (·.values "PW") = [whiteName]
  result : nodes.flatMap (·.values "RE") = [g.resultText]
  comments : nodes.head?.map (·.values "C") =
    some (if g.comments = [] then [] else ["\n".intercalate g.comments])
  /-- After the first node there is one for each move, with its color, place and comment. -/
  turns : nodes.tail.map Node.turn? = g.turns.map some

theorem reads_of (g : Game) (h : ∀ t ∈ g.turns, t.move ≠ .resign) :
    Reads g.blackName g.whiteName g
      (single (g.facts true) :: (g.turns.map (turnFacts true)).map single) := by
  -- No property of the first node stands in another one.
  have hrest : ∀ name ∉ ["B", "W", "C"],
      ((g.turns.map (turnFacts true)).map single).flatMap (·.values name) = [] := by
    intro name hname
    rw [List.flatMap_eq_nil_iff]
    intro node hnode
    obtain ⟨facts, hfacts, rfl⟩ := List.mem_map.mp hnode
    obtain ⟨t, -, rfl⟩ := List.mem_map.mp hfacts
    exact values_turnFacts hname true t
  refine ⟨?_, ?_, ?_, ?_, ?_⟩
  · rw [List.flatMap_cons, hrest "PB" (by decide), values_facts (by decide)]
    rfl
  · rw [List.flatMap_cons, hrest "PW" (by decide), values_facts (by decide)]
    rfl
  · rw [List.flatMap_cons, hrest "RE" (by decide), values_facts (by decide)]
    rfl
  · rw [List.head?_cons, Option.map_some, values_single, facts]
    cases hcomments : g.comments with
    | nil => rfl
    | cons comment comments => rfl
  · rw [List.tail_cons, List.map_map, List.map_map]
    exact List.map_congr_left fun t ht => turn?_turnFacts (h t ht)

/-- A game has a record whatever its names and comments are and whatever moves it was told. The
record is read as that game, and its moves lead from the empty board to the present one; without
comments the same nodes are read but for the comments. -/
theorem record_reads (blackName whiteName : String) (options : GameOptions)
    (entries : List Entry) :
    let g := entries.foldl enter (.new blackName whiteName options)
    ∃ text bare nodes, g.record true = .ok text ∧ read text = some nodes ∧
      Reads blackName whiteName g nodes ∧
      (∃ turns : List Turn, nodes.tail.map Node.turn? = turns.map some ∧
        ∃ pos, (Position.initial options.komi).playAll (turns.map (·.move)) = .ok pos ∧
          pos.board = g.position.board) ∧
      g.record false = .ok bare ∧ read bare = some (nodes.map Node.withoutComment) := by
  intro g
  have htold : Told (.initial options.komi) g :=
    (Told.fromPosition rfl blackName whiteName options).enters entries
  obtain ⟨hblack, hwhite⟩ := names_enters (.new blackName whiteName options) entries
  have hturns : ∀ t ∈ g.turns, t.move ≠ .resign := by
    intro t ht
    obtain ⟨before, after, hsplit⟩ := List.append_of_mem ht
    obtain ⟨-, -, -, hmove⟩ := htold.turns before t ⟨after, by simp [hsplit]⟩
    exact hmove
  obtain ⟨text, hrecord, hread⟩ := read_record true hturns
  obtain ⟨bare, hrecord', hread'⟩ := read_record false hturns
  have hreads := reads_of g hturns
  rw [hblack, hwhite] at hreads
  refine ⟨text, bare, _, hrecord, hread, hreads,
    ⟨g.turns, hreads.turns, g.position, htold.replay, rfl⟩, hrecord', ?_⟩
  have hbare : ∀ t, (single (turnFacts true t)).withoutComment = single (turnFacts false t) :=
    withoutComment_turnFacts
  rw [hread', List.map_cons, withoutComment_facts]
  simp only [List.map_map, Function.comp_def, hbare]

end Game

end Goban
