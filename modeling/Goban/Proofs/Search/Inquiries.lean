import Goban.Inquiry

/-!
# Inquiries under all answers

An inquiry is done without a fault under all answers of a kind if each of its branches is
(`Inquiry.Always`); what it gives under some answers (`Inquiry.Gives`) has the property then. The
answers that a model may give are those of the right size (`Evaluation.RightSized`): nothing is
assumed of the numbers in them. Where the questions matter too, `Inquiry.Tells` and `Inquiry.Asks`
say the same with them. `Inquiry.outcome` is what comes of an inquiry when one function gives all
the answers.
-/

namespace Goban

/-- An evaluation for each position, with a weight for each move. -/
def Evaluation.RightSized (positions : List Position) (answer : List Evaluation) : Prop :=
  answer.length = positions.length ∧ ∀ e ∈ answer, e.policy.length = policySize

/-- Every question has an answer of the right size. -/
theorem Evaluation.exists_rightSized (positions : List Position) :
    ∃ answer, Evaluation.RightSized positions answer :=
  ⟨List.replicate positions.length ⟨List.replicate policySize .zero, .zero⟩, by simp, by simp⟩

namespace Inquiry

variable {α β : Type} {fits : List Position → List Evaluation → Prop} {P Q : α → Prop}
  {work : Inquiry α} {go : α → Inquiry β}

/-- With answers that fit the questions the work meets no fault, and the result has the property. -/
def Always (fits : List Position → List Evaluation → Prop) (P : α → Prop) : Inquiry α → Prop
  | done a => P a
  | fail _ => False
  | ask positions next => ∀ answer, fits positions answer → (next answer).Always fits P

/-- A result of the work with answers that fit the questions. -/
inductive Gives (fits : List Position → List Evaluation → Prop) : Inquiry α → α → Prop where
  | done (a : α) : Gives fits (.done a) a
  | ask {positions : List Position} {next : List Evaluation → Inquiry α}
      {answer : List Evaluation} {a : α} (h : fits positions answer)
      (rest : Gives fits (next answer) a) : Gives fits (.ask positions next) a

theorem Always.of_gives {a : α} (h : work.Always fits P) (ha : work.Gives fits a) : P a := by
  induction ha with
  | done => exact h
  | ask hanswer _ ih => exact ih (h _ hanswer)

theorem Always.mono (h : work.Always fits P) (hPQ : ∀ a, P a → Q a) : work.Always fits Q := by
  induction work with
  | done a => exact hPQ a h
  | fail => exact h
  | ask positions next ih => exact fun answer hanswer => ih answer (h answer hanswer)

/-- With fewer answers to reckon with there are no more faults. -/
theorem Always.of_fewer {fits' : List Position → List Evaluation → Prop} (h : work.Always fits P)
    (hfits : ∀ positions answer, fits' positions answer → fits positions answer) :
    work.Always fits' P := by
  induction work with
  | done => exact h
  | fail => exact h
  | ask positions next ih =>
    exact fun answer hanswer => ih answer (h answer (hfits positions answer hanswer))

theorem always_bind {R : β → Prop} :
    (work >>= go).Always fits R ↔ work.Always fits fun a => (go a).Always fits R := by
  induction work with
  | done => exact Iff.rfl
  | fail => exact Iff.rfl
  | ask positions next ih => exact forall₂_congr fun answer _ => ih answer

/-- Work that meets no fault gives a result if every question can be answered. -/
theorem Always.exists_gives (h : work.Always fits P)
    (hfits : ∀ positions, ∃ answer, fits positions answer) : ∃ a, work.Gives fits a := by
  induction work with
  | done a => exact ⟨a, .done a⟩
  | fail => exact h.elim
  | ask positions next ih =>
    obtain ⟨answer, hanswer⟩ := hfits positions
    obtain ⟨a, ha⟩ := ih answer (h answer hanswer)
    exact ⟨a, .ask hanswer ha⟩

/-- Work that meets no fault gives a result to a function whose answers fit. -/
theorem Always.answer {reply : List Position → List Evaluation} (h : work.Always fits P)
    (hreply : ∀ positions, fits positions (reply positions)) :
    ∃ a, (work.answer reply).2 = .ok a ∧ work.Gives fits a := by
  induction work with
  | done a => exact ⟨a, rfl, .done a⟩
  | fail => exact h.elim
  | ask positions next ih =>
    obtain ⟨a, ha, hgives⟩ := ih _ (h _ (hreply positions))
    exact ⟨a, ha, .ask (hreply positions) hgives⟩

/-! ## With the questions -/

/-- With answers that fit the questions the work meets no fault, and the questions and the result
have the property. -/
def Tells (fits : List Position → List Evaluation → Prop)
    (P : List (List Position) → α → Prop) : Inquiry α → Prop
  | done a => P [] a
  | fail _ => False
  | ask positions next => ∀ answer, fits positions answer →
      (next answer).Tells fits fun asked => P (positions :: asked)

/-- A result of the work, and the questions on the way to it, with answers that fit them. -/
inductive Asks (fits : List Position → List Evaluation → Prop) :
    Inquiry α → List (List Position) → α → Prop where
  | done (a : α) : Asks fits (.done a) [] a
  | ask {positions : List Position} {next : List Evaluation → Inquiry α}
      {answer : List Evaluation} {asked : List (List Position)} {a : α}
      (h : fits positions answer) (rest : Asks fits (next answer) asked a) :
      Asks fits (.ask positions next) (positions :: asked) a

theorem Tells.of_asks {P : List (List Position) → α → Prop} {asked : List (List Position)} {a : α}
    (h : work.Tells fits P) (ha : work.Asks fits asked a) : P asked a := by
  induction ha generalizing P with
  | done => exact h
  | ask hanswer _ ih => exact ih (h _ hanswer)

theorem Tells.always {P : List (List Position) → α → Prop} (h : work.Tells fits P)
    (hPQ : ∀ asked a, P asked a → Q a) : work.Always fits Q := by
  induction work generalizing P with
  | done a => exact hPQ [] a h
  | fail => exact h
  | ask positions next ih =>
    exact fun answer hanswer => ih answer (h answer hanswer) fun asked => hPQ (positions :: asked)

theorem Asks.gives {asked : List (List Position)} {a : α} (h : work.Asks fits asked a) :
    work.Gives fits a := by
  induction h with
  | done a => exact .done a
  | ask hanswer _ ih => exact .ask hanswer ih

/-- Work that meets no fault has the properties of its results and of the questions on the way. -/
theorem Always.tells {R : List (List Position) → α → Prop} (h : work.Always fits P)
    (hPR : ∀ asked a, work.Asks fits asked a → P a → R asked a) : work.Tells fits R := by
  induction work generalizing R with
  | done a => exact hPR [] a (.done a) h
  | fail => exact h
  | ask positions next ih =>
    intro answer hanswer
    exact ih answer (h answer hanswer) fun asked a ha => hPR (positions :: asked) a (.ask hanswer ha)

theorem Gives.exists_asks {a : α} (h : work.Gives fits a) : ∃ asked, work.Asks fits asked a := by
  induction h with
  | done a => exact ⟨[], .done a⟩
  | ask hanswer _ ih =>
    obtain ⟨asked, hasks⟩ := ih
    exact ⟨_, .ask hanswer hasks⟩

theorem Asks.mono {fits' : List Position → List Evaluation → Prop} {asked : List (List Position)}
    {a : α} (h : work.Asks fits asked a)
    (hfits : ∀ positions answer, fits positions answer → fits' positions answer) :
    work.Asks fits' asked a := by
  induction h with
  | done a => exact .done a
  | ask hanswer _ ih => exact .ask (hfits _ _ hanswer) ih

/-- What asks nothing has its result at once. -/
theorem Asks.of_except {e : Except Fault α} {asked : List (List Position)} {a : α}
    (h : (ofExcept e).Asks fits asked a) : e = .ok a ∧ asked = [] := by
  unfold ofExcept at h
  split at h <;> cases h
  exact ⟨rfl, rfl⟩

/-- What comes first asks first. -/
theorem Asks.bind {asked : List (List Position)} {b : β} (h : (work >>= go).Asks fits asked b) :
    ∃ a before after, work.Asks fits before a ∧ (go a).Asks fits after b ∧
      asked = before ++ after := by
  induction work generalizing asked with
  | done a => exact ⟨a, [], asked, .done a, h, rfl⟩
  | fail => cases h
  | ask positions next ih =>
    cases h with
    | ask hanswer hrest =>
      obtain ⟨a, before, after, hbefore, hafter, rfl⟩ := ih _ hrest
      exact ⟨a, positions :: before, after, .ask hanswer hbefore, hafter, rfl⟩

theorem Asks.andThen {before after : List (List Position)} {a : α} {b : β}
    (h : work.Asks fits before a) (hgo : (go a).Asks fits after b) :
    (work >>= go).Asks fits (before ++ after) b := by
  induction h with
  | done => exact hgo
  | ask hanswer _ ih => exact .ask hanswer (ih hgo)

/-! ## Under one function of answers -/

/-- What comes of an inquiry when a function answers all its questions. -/
def outcome (reply : List Position → List Evaluation) (work : Inquiry α) : Except Fault α :=
  (work.answer reply).2

section Outcome

variable (reply : List Position → List Evaluation)

theorem outcome_ofExcept (e : Except Fault α) : (ofExcept e).outcome reply = e := by
  cases e <;> rfl

theorem outcome_bind (work : Inquiry α) (go : α → Inquiry β) :
    (work >>= go).outcome reply = work.outcome reply >>= fun a => (go a).outcome reply := by
  induction work with
  | done a => rfl
  | fail fault => rfl
  | ask positions next ih => exact ih (reply positions)

theorem outcome_map (f : α → β) (work : Inquiry α) :
    (f <$> work).outcome reply = f <$> work.outcome reply := by
  induction work with
  | done a => rfl
  | fail fault => rfl
  | ask positions next ih => exact ih (reply positions)

end Outcome

/-! ## Inquiries as a monad -/

instance : LawfulMonad Inquiry := LawfulMonad.mk' Inquiry
  (by
    intro α work
    induction work with
    | done a => rfl
    | fail fault => rfl
    | ask positions next ih => exact congrArg (ask positions) (funext ih))
  (by intros; rfl)
  (by
    intro α β γ work f g
    induction work with
    | done a => rfl
    | fail fault => rfl
    | ask positions next ih => exact congrArg (ask positions) (funext ih))

theorem ofExcept_map (f : α → β) (e : Except Fault α) : ofExcept (f <$> e) = f <$> ofExcept e := by
  cases e <;> rfl

end Inquiry

end Goban
