import BitcoinOracle.LoggedRun
import Mathlib.Data.Fintype.Pi
import Mathlib.Tactic.Common

/-! # Pages and retries

The clients of Hiro and Unisat read a list page by page.  An observable of all pages
keeps its offset in a variable of its own, outside of any subscription, and the request
for its first page is made when it is created.  `retry` subscribes to it again, with the
offset where the failed subscription has left it: the next subscription goes on from
there, after the first page.

So what is emitted after a failure always lacks a page (`all_pages_iff`).
-/
namespace BitcoinOracle

namespace Paging

/-! ## Clients -/

/-- How the pages of a client are read, and what the API answers about a list. -/
structure Client (α : Type) where
  Page : Type
  results : Page → List α
  total : Page → Option Nat
  answer : List α → Nat → Nat → Page
  results_answer : ∀ list offset limit, results (answer list offset limit) =
    (list.drop offset).take limit
  total_answer : ∀ list offset limit, total (answer list offset limit) = some list.length

namespace Hiro

structure Page (α : Type) where
  limit : Nat
  offset : Nat
  results : List α
  total : Nat

/-- Activities and balances. -/
def client (α : Type) : Client α where
  Page := Page α
  results := Page.results
  total value := some value.total
  answer list offset limit := ⟨limit, offset, (list.drop offset).take limit, list.length⟩
  results_answer _ _ _ := rfl
  total_answer _ _ _ := rfl

end Hiro

namespace Unisat

structure Detail (α : Type) where
  total : Nat
  start : Nat
  detail : List α

structure Data (α : Type) where
  data : α

/-- `getActivityOnBlock$` takes the list out of its response. -/
def activityClient (α : Type) : Client α where
  Page := Detail α
  results := Detail.detail
  total value := some value.total
  answer list offset limit := ⟨list.length, offset, (list.drop offset).take limit⟩
  results_answer _ _ _ := rfl
  total_answer _ _ _ := rfl

def balanceClient (α : Type) : Client α where
  Page := Data (Data (Detail α))
  results value := value.data.data.detail
  total value := some value.data.data.total
  answer list offset limit := ⟨⟨⟨list.length, offset, (list.drop offset).take limit⟩⟩⟩
  results_answer _ _ _ := rfl
  total_answer _ _ _ := rfl

end Unisat

/-- An observable of all pages, and the answer to the request it has made already. -/
structure Source (α : Type) where
  client : Client α
  list : List α
  pageLimit : Nat
  totalLimit : Nat
  firstResolves : Bool
  pageLimit_pos : 0 < pageLimit
  length_le : list.length ≤ totalLimit

section Members
variable {α : Type} (list : List α) (pageLimit totalLimit : Nat) (firstResolves : Bool)
  (pageLimit_pos : 0 < pageLimit) (length_le : list.length ≤ totalLimit)

def Hiro.getAllActivitiesOnBlock : Source α :=
  ⟨Hiro.client α, list, pageLimit, totalLimit, firstResolves, pageLimit_pos, length_le⟩

def Hiro.getAllBalancesOnBlock : Source α :=
  ⟨Hiro.client α, list, pageLimit, totalLimit, firstResolves, pageLimit_pos, length_le⟩

def Unisat.getAllActivitiesOnBlock : Source α :=
  ⟨Unisat.activityClient α, list, pageLimit, totalLimit, firstResolves, pageLimit_pos, length_le⟩

def Unisat.getAllBalancesOnBlock : Source α :=
  ⟨Unisat.balanceClient α, list, pageLimit, totalLimit, firstResolves, pageLimit_pos, length_le⟩

end Members

/-! ## Subscriptions -/

inductive Stage (α : Type) where
  /-- The first page is waited for. -/
  | first
  /-- The page at the offset is waited for. -/
  | page (acc : List α)
  | done (acc : List α)
  /-- There is no retry left. -/
  | failed
  deriving DecidableEq

/-- The variable of an observable, and its subscription. -/
structure Progress (α : Type) where
  offset : Nat
  stage : Stage α
  deriving DecidableEq

namespace Source
variable {α : Type} (src : Source α)

/-- The offset of the page after `value`, if there is to be one. -/
def expand (offset : Nat) (value : src.client.Page) : Option Nat :=
  if (src.client.results value).length = 0 then none
  else
    match src.client.total value with
    | none => none
    | some total =>
        if total ≤ offset + src.pageLimit then none
        else if src.totalLimit ≤ offset + src.pageLimit then none
        else some (offset + src.pageLimit)

/-- The page at an offset. -/
def value (offset : Nat) : src.client.Page := src.client.answer src.list offset src.pageLimit

/-- A page has come. -/
def receive (offset : Nat) (acc : List α) (value : src.client.Page) : Progress α :=
  let acc := acc ++ src.client.results value
  match src.expand offset value with
  | some offset => ⟨offset, .page acc⟩
  | none => ⟨offset, .done acc⟩

end Source

/-- The observables that `combineLatest` and `retry` subscribe to together. -/
structure State {ι : Type} (α : ι → Type) where
  progress : (i : ι) → Progress (α i)
  retries : Nat

inductive Action (ι : Type) where
  /-- The first page comes, or fails to. -/
  | first (i : ι)
  | reply (i : ι) (resolves : Bool)
  deriving DecidableEq

namespace State
variable {ι : Type} [DecidableEq ι] {α : ι → Type} (sources : (i : ι) → Source (α i)) (s : State α)

def setStage (stage : (i : ι) → Stage (α i)) (retries : Nat) : State α where
  progress i := ⟨(s.progress i).offset, stage i⟩
  retries := retries

/-- A subscription has failed: all are started again, from where their offsets are. -/
def error : State α :=
  match s.retries with
  | 0 => s.setStage (fun _ => .failed) 0
  | retries + 1 => s.setStage (fun _ => .first) retries

def receive (i : ι) (acc : List (α i)) (offset : Nat) : State α :=
  { s with
    progress := Function.update s.progress i
      ((sources i).receive (s.progress i).offset acc ((sources i).value offset)) }

def next : Action ι → State α
  | .first i =>
      match (s.progress i).stage with
      | .first => if (sources i).firstResolves = true then s.receive sources i [] 0 else s.error
      | _ => s
  | .reply i resolves =>
      match (s.progress i).stage with
      | .page acc =>
          if resolves = true then s.receive sources i acc (s.progress i).offset else s.error
      | _ => s

end State

section Machine
variable {ι : Type} [DecidableEq ι] {α : ι → Type}

def start (retries : Nat) : State α where
  progress _ := ⟨0, .first⟩
  retries := retries

def machine (sources : (i : ι) → Source (α i)) : Machine (State α) (Action ι) Unit where
  next := State.next sources
  log _ _ := []

/-- A page request fails. -/
def Fails (sources : (i : ι) → Source (α i)) (s : State α) : Action ι → Prop
  | .first i => (s.progress i).stage = .first ∧ (sources i).firstResolves = false
  | .reply i resolves => resolves = false ∧ ∃ acc, (s.progress i).stage = .page acc

/-- Every observable has emitted an array. -/
def Emitted (s : State α) : Prop := ∀ i, ∃ acc, (s.progress i).stage = .done acc

/-- Every observable has emitted its list. -/
def Complete (sources : (i : ι) → Source (α i)) (s : State α) : Prop :=
  ∀ i, (s.progress i).stage = .done (sources i).list

instance [Fintype ι] [(i : ι) → DecidableEq (α i)] (sources : (i : ι) → Source (α i))
    (s : State α) : Decidable (Complete sources s) := Fintype.decidableForallFintype

end Machine

/-! ## One page -/

namespace Source
variable {α : Type} (src : Source α) {offset first : Nat}

theorem results_value (first : Nat) :
    src.client.results (src.value first) = (src.list.drop first).take src.pageLimit :=
  src.client.results_answer ..

/-- There is a next page as long as the list goes on behind the page at the offset. -/
theorem expand_value (h : first ≤ offset) : src.expand offset (src.value first) =
    if offset + src.pageLimit < src.list.length then some (offset + src.pageLimit) else none := by
  have hpos := src.pageLimit_pos
  have hlimit := src.length_le
  have htotal : src.client.total (src.value first) = some src.list.length :=
    src.client.total_answer ..
  rw [expand, results_value, htotal, List.length_take, List.length_drop]
  split
  · rw [if_neg (by omega)]
  · dsimp only
    split
    · rw [if_neg (by omega)]
    · rw [if_neg (by omega), if_pos (by omega)]

theorem receive_value (h : first ≤ offset) (acc : List α) :
    src.receive offset acc (src.value first) =
      if offset + src.pageLimit < src.list.length then
        ⟨offset + src.pageLimit, .page (acc ++ (src.list.drop first).take src.pageLimit)⟩
      else ⟨offset, .done (acc ++ (src.list.drop first).take src.pageLimit)⟩ := by
  rw [receive, expand_value src h, results_value]
  by_cases hmore : offset + src.pageLimit < src.list.length
  · rw [if_pos hmore, if_pos hmore]
  · rw [if_neg hmore, if_neg hmore]

/-- The subscription has all pages up to the offset. -/
def Fresh (p : Progress α) : Prop :=
  match p.stage with
  | .first => p.offset = 0
  | .page acc => acc = src.list.take p.offset ∧ src.pageLimit ≤ p.offset ∧
      p.offset < src.list.length
  | .done acc => acc = src.list
  | .failed => True

/-- The subscription lacks a page, or it will. -/
def Stale (p : Progress α) : Prop :=
  src.pageLimit ≤ p.offset ∧ p.offset < src.list.length ∧
    match p.stage with
    | .page acc => acc.length + src.pageLimit ≤ p.offset
    | .done acc => acc.length < src.list.length
    | _ => True

/-- The page at the offset continues what there is. -/
theorem fresh_receive {acc : List α} (hacc : acc = src.list.take offset) :
    src.Fresh (src.receive offset acc (src.value offset)) := by
  have hnext : acc ++ (src.list.drop offset).take src.pageLimit =
      src.list.take (offset + src.pageLimit) := by rw [hacc, List.take_add]
  rw [receive_value src (Nat.le_refl offset), hnext]
  split
  · next hmore => exact ⟨rfl, Nat.le_add_left _ _, hmore⟩
  · next hend => exact List.take_of_length_le (by omega)

theorem stale_receive (hlow : src.pageLimit ≤ offset) (hhigh : offset < src.list.length)
    {acc : List α} (hfirst : first ≤ offset) (hacc : acc.length + src.pageLimit ≤ offset) :
    src.Stale (src.receive offset acc (src.value first)) := by
  have hlength : (acc ++ (src.list.drop first).take src.pageLimit).length ≤
      acc.length + src.pageLimit := by
    rw [List.length_append]
    exact Nat.add_le_add_left (List.length_take_le _ _) _
  have hpos := src.pageLimit_pos
  rw [receive_value src hfirst]
  split
  · exact ⟨Nat.le_add_left _ _, ‹_›, by dsimp only; omega⟩
  · refine ⟨hlow, hhigh, ?_⟩
    dsimp only
    rw [List.length_append, List.length_take, List.length_drop]
    omega

end Source

/-! ## A run -/

section Run
variable {ι : Type} [DecidableEq ι] {α : ι → Type} {sources : (i : ι) → Source (α i)}
  {s : State α}

namespace State

omit [DecidableEq ι] in
theorem progress_error (i : ι) :
    ∃ stage, (stage = .first ∨ stage = .failed) ∧
      s.error.progress i = ⟨(s.progress i).offset, stage⟩ := by
  unfold error
  split
  · exact ⟨.failed, Or.inr rfl, rfl⟩
  · exact ⟨.first, Or.inl rfl, rfl⟩

/-- What an action can do to an observable. -/
theorem next_cases (a : Action ι) (i : ι) :
    (s.next sources a).progress i = s.progress i ∨
      (Fails sources s a ∧ ∃ stage, (stage = .first ∨ stage = .failed) ∧
        (s.next sources a).progress i = ⟨(s.progress i).offset, stage⟩) ∨
      ((s.progress i).stage = .first ∧ (sources i).firstResolves = true ∧
        (s.next sources a).progress i =
          (sources i).receive (s.progress i).offset [] ((sources i).value 0)) ∨
      ∃ acc, (s.progress i).stage = .page acc ∧ (s.next sources a).progress i =
        (sources i).receive (s.progress i).offset acc ((sources i).value (s.progress i).offset) := by
  cases a with
  | first j =>
      dsimp only [next]
      split
      · next hstage =>
          by_cases hresolves : (sources j).firstResolves = true
          · rw [if_pos hresolves]
            by_cases hij : i = j
            · subst hij
              exact Or.inr (Or.inr (Or.inl ⟨hstage, hresolves, Function.update_self ..⟩))
            · exact Or.inl (Function.update_of_ne hij ..)
          · rw [if_neg hresolves]
            exact Or.inr (Or.inl ⟨⟨hstage, eq_false_of_ne_true hresolves⟩, s.progress_error i⟩)
      · exact Or.inl rfl
  | reply j resolves =>
      dsimp only [next]
      split
      · next acc hstage =>
          by_cases hresolves : resolves = true
          · rw [if_pos hresolves]
            by_cases hij : i = j
            · subst hij
              exact Or.inr (Or.inr (Or.inr ⟨acc, hstage, Function.update_self ..⟩))
            · exact Or.inl (Function.update_of_ne hij ..)
          · rw [if_neg hresolves]
            exact Or.inr (Or.inl
              ⟨⟨eq_false_of_ne_true hresolves, acc, hstage⟩, s.progress_error i⟩)
      · exact Or.inl rfl

theorem fresh_next {a : Action ι} {i : ι} (hkeeps : ¬ Fails sources s a)
    (h : (sources i).Fresh (s.progress i)) :
    (sources i).Fresh ((s.next sources a).progress i) := by
  rcases s.next_cases a i with hsame | ⟨hfails, -⟩ | ⟨hstage, -, hnext⟩ | ⟨acc, hstage, hnext⟩
  · rwa [hsame]
  · exact (hkeeps hfails).elim
  · rw [Source.Fresh, hstage] at h
    rw [hnext, h]
    exact (sources i).fresh_receive rfl
  · rw [Source.Fresh, hstage] at h
    rw [hnext]
    exact (sources i).fresh_receive h.1

/-- Once a page is lacking, it is lacking after every retry. -/
theorem stale_next (a : Action ι) {i : ι} (h : (sources i).Stale (s.progress i)) :
    (sources i).Stale ((s.next sources a).progress i) := by
  obtain ⟨hlow, hhigh, hacc⟩ := h
  rcases s.next_cases a i with hsame | ⟨-, stage, hstage, hnext⟩ | ⟨hstage, -, hnext⟩ |
    ⟨acc, hstage, hnext⟩
  · rw [hsame]
    exact ⟨hlow, hhigh, hacc⟩
  · rw [hnext]
    rcases hstage with rfl | rfl
    · exact ⟨hlow, hhigh, trivial⟩
    · exact ⟨hlow, hhigh, trivial⟩
  · rw [hnext]
    refine (sources i).stale_receive hlow hhigh (Nat.zero_le _) ?_
    rw [List.length_nil]
    omega
  · rw [hstage] at hacc
    rw [hnext]
    exact (sources i).stale_receive hlow hhigh (Nat.le_refl _) hacc

/-- A first page that has not come never comes. -/
theorem waiting_next (a : Action ι) {i : ι} (hresolves : (sources i).firstResolves = false)
    (h : (s.progress i).stage = .first ∨ (s.progress i).stage = .failed) :
    ((s.next sources a).progress i).stage = .first ∨
      ((s.next sources a).progress i).stage = .failed := by
  rcases s.next_cases a i with hsame | ⟨-, stage, hstage, hnext⟩ | ⟨-, hcomes, -⟩ |
    ⟨acc, hstage, -⟩
  · rwa [hsame]
  · rwa [hnext]
  · rw [hresolves] at hcomes
    cases hcomes
  · rw [hstage] at h
    rcases h with h | h
    · cases h
    · cases h

end State

/-- A failure is never made good. -/
theorem not_complete_of_fails {a : Action ι} {actions : List (Action ι)}
    (hfresh : ∀ i, (sources i).Fresh (s.progress i)) (hfails : Fails sources s a)
    (hemitted : Emitted ((machine sources).run (s.next sources a) actions)) :
    ¬ Complete sources ((machine sources).run (s.next sources a) actions) := by
  cases a with
  | first i =>
      -- the promise of the first page is the same at every retry
      obtain ⟨hstage, hresolves⟩ := hfails
      have hwaiting := (machine sources).run_of_step
        (fun s => (s.progress i).stage = .first ∨ (s.progress i).stage = .failed)
        (fun s a h => s.waiting_next a hresolves h)
        (s.waiting_next (.first i) hresolves (Or.inl hstage)) actions
      obtain ⟨acc, hdone⟩ := hemitted i
      rw [hdone] at hwaiting
      rcases hwaiting with h | h
      · cases h
      · cases h
  | reply i resolves =>
      obtain ⟨rfl, acc, hstage⟩ := hfails
      have hpage := hfresh i
      rw [Source.Fresh, hstage] at hpage
      have hnext : s.next sources (.reply i false) = s.error := by
        rw [State.next, hstage]
        exact if_neg Bool.false_ne_true
      obtain ⟨stage, hfirst, herror⟩ := s.progress_error i
      have hstale : (sources i).Stale ((s.next sources (.reply i false)).progress i) := by
        rw [hnext, herror]
        rcases hfirst with rfl | rfl
        · exact ⟨hpage.2.1, hpage.2.2, trivial⟩
        · exact ⟨hpage.2.1, hpage.2.2, trivial⟩
      have hend := (machine sources).run_of_step (fun s => (sources i).Stale (s.progress i))
        (fun s a h => s.stale_next a h) hstale actions
      intro hcomplete
      obtain ⟨-, -, hshort⟩ := hend
      rw [hcomplete i] at hshort
      exact Nat.lt_irrefl _ hshort

theorem complete_iff {actions : List (Action ι)}
    (hfresh : ∀ i, (sources i).Fresh (s.progress i))
    (hemitted : Emitted ((machine sources).run s actions)) :
    Complete sources ((machine sources).run s actions) ↔
      (machine sources).Along (fun s a => ¬ Fails sources s a) s actions := by
  induction actions generalizing s with
  | nil =>
      refine iff_of_true (fun i => ?_) trivial
      obtain ⟨acc, hdone⟩ := hemitted i
      have hacc := hfresh i
      rw [Source.Fresh, show (s.progress i).stage = .done acc from hdone] at hacc
      exact hacc ▸ hdone
  | cons a actions ih =>
      rw [Machine.run_cons] at hemitted ⊢
      by_cases hfails : Fails sources s a
      · exact iff_of_false (not_complete_of_fails hfresh hfails hemitted)
          fun halong => halong.1 hfails
      · exact (ih (fun i => s.fresh_next hfails (hfresh i)) hemitted).trans
          (and_iff_right hfails).symm

/-- **All pages are emitted only if no request fails.**  Of a run in which everything that
is retried together emits, for any lists, page limits and orders of the answers. -/
theorem all_pages_iff (sources : (i : ι) → Source (α i)) (retries : Nat)
    {actions : List (Action ι)}
    (hemitted : Emitted ((machine sources).run (start retries) actions)) :
    Complete sources ((machine sources).run (start retries) actions) ↔
      (machine sources).Along (fun s a => ¬ Fails sources s a) (start retries) actions :=
  complete_iff (fun _ => rfl) hemitted

end Run

end Paging

/-! ## Three items -/

namespace Sample
open Paging

def activities : Source Nat :=
  Hiro.getAllActivitiesOnBlock [10, 20, 30] 1 60 true (by decide) (by decide)

def pagesOf (src : Source Nat) (replies : List (Paging.Action Unit)) :
    Paging.State fun _ : Unit => Nat :=
  (Paging.machine fun _ : Unit => src).run (Paging.start 10) replies

/-- Without a failure. -/
def answered : List (Paging.Action Unit) := [.first (), .reply () true, .reply () true]

theorem all_pages_answered : Complete (fun _ => activities) (pagesOf activities answered) ↔
    (Paging.machine fun _ : Unit => activities).Along
      (fun s a => ¬ Fails (fun _ => activities) s a) (Paging.start 10) answered :=
  all_pages_iff (fun _ => activities) 10 (by
    have hdone : ((pagesOf activities answered).progress ()).stage = .done [10, 20, 30] := by
      decide +kernel
    exact fun _ => ⟨_, hdone⟩)

/-- The second page fails once. -/
def answeredLate : List (Paging.Action Unit) :=
  [.first (), .reply () false, .first (), .reply () true]

/-- The pages of two addresses, that of the second one failing once. -/
def balances : Fin 2 → Source Nat
  | 0 => Unisat.getAllBalancesOnBlock [10, 20, 30] 1 60 true (by decide) (by decide)
  | 1 => Unisat.getAllBalancesOnBlock [40, 50] 1 60 true (by decide) (by decide)

/-- **The page that has failed is not asked for again.**  In any of the clients; and an
address loses its pages when another one's fail. -/
theorem page_lost :
    (∀ src ∈ [activities,
        Hiro.getAllBalancesOnBlock [10, 20, 30] 1 60 true (by decide) (by decide),
        Unisat.getAllActivitiesOnBlock [10, 20, 30] 1 60 true (by decide) (by decide),
        Unisat.getAllBalancesOnBlock [10, 20, 30] 1 60 true (by decide) (by decide)],
      (pagesOf src answeredLate).progress () = ⟨2, .done [10, 30]⟩ ∧
        ¬ Complete (fun _ => src) (pagesOf src answeredLate)) ∧
    ((Paging.machine balances).run (Paging.start 5)
      [.first 0, .reply 0 true, .reply 0 true, .first 1, .reply 1 false,
        .first 0, .first 1]).progress 0 = ⟨2, .done [10]⟩ := by
  decide +kernel

end Sample
end BitcoinOracle
