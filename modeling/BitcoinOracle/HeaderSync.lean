import BitcoinOracle.BitcoinProof
import BitcoinOracle.KeyedTable
import BitcoinOracle.LoggedRun
import BitcoinOracle.Sha256

/-! # Header sync

`sync` fetches, over and over, the headers of the heights that are missing below the
highest stored one, and then those from there up to the tip.  A fetch or an insert may
fail and leave a hole, which the next iteration finds: an iteration in which nothing
fails leaves no hole (`header_sync_heals`).

A row is keyed by its height and its header, every row is stored as canonical, and
nothing ever takes that back.  After a reorganisation the old header of a height stays
canonical beside the new one (`one_canonical_iff`).
-/
namespace BitcoinOracle
open Clarity KeyedTable

namespace HeaderSync

/-! ## The table -/

/-- A row of `indexer.blocks`. -/
structure BlockRow where
  height : Int
  header : Bytes
  blockHash : Bytes
  canonical : Bool
  deriving DecidableEq

/-- The primary key. -/
def BlockRow.key (row : BlockRow) : Int × Bytes := (row.height, row.header)

/-- The double hash of a header, its bytes reversed. -/
def calculateBlockHash (P : Primitives) (blockHeader : Bytes) : Bytes :=
  (ClarityBitcoin.sha256d P blockHeader).reverse

/-- `none` for an exception: the header is unique, and stored with another height. -/
def upsertBlock (block : BlockRow) (blocks : List BlockRow) : Option (List BlockRow) :=
  if Stored BlockRow.key blocks block.key then
    some (blocks.map fun row =>
      if row.key = block.key then { row with canonical := block.canonical } else row)
  else if Stored BlockRow.header blocks block.header then none
  else some (blocks ++ [block])

/-- The height of `latestBlock`. -/
def latestHeight (blocks : List BlockRow) : Option Int := (blocks.map BlockRow.height).max?

/-- Some row is of the height. -/
def HasHeight (blocks : List BlockRow) (height : Int) : Prop := Stored BlockRow.height blocks height

instance (blocks : List BlockRow) (height : Int) : Decidable (HasHeight blocks height) :=
  inferInstanceAs (Decidable (Stored ..))

/-- The integers from one up to another, which is left out. -/
def range (first stop : Int) : List Int :=
  (List.range (stop - first).toNat).map fun k : Nat => first + k

/-- `generate_series` without the heights that have a row; without a maximum it is empty. -/
def getMissingBlocks (startedAt : Int) (blocks : List BlockRow) : List Int :=
  match latestHeight blocks with
  | none => []
  | some latest => (range startedAt (latest + 1)).filter fun height => ¬ HasHeight blocks height

/-! ## The worker -/

/-- What Electrum knows of the chain. -/
structure View where
  tip : Int
  header : Int → Bytes

/-- `blockchain_block_header`. -/
def View.fetch (view : View) (height : Int) : Option Bytes :=
  if 0 ≤ height ∧ height ≤ view.tip then some (view.header height) else none

/-- The worker between two of its calls.  `todo` are the heights of the queue that have
not been dealt with. -/
inductive Phase where
  | down
  | ready
  | syncingMissing (todo : List Int)
  | syncingFrom (toHeight : Int) (todo : List Int)
  /-- An iteration is over. -/
  | synced (toHeight : Int)
  deriving DecidableEq

def Phase.todo : Phase → List Int
  | .syncingMissing todo => todo
  | .syncingFrom _ todo => todo
  | _ => []

/-- The entry of the queue is dealt with. -/
def Phase.settle (n : Nat) : Phase → Phase
  | .syncingMissing todo => .syncingMissing (todo.eraseIdx n)
  | .syncingFrom toHeight todo => .syncingFrom toHeight (todo.eraseIdx n)
  | phase => phase

structure State where
  blocks : List BlockRow
  phase : Phase
  view : View

def start (view : View) : State := ⟨[], .down, view⟩

inductive Action where
  | start
  | getMissingBlocks
  /-- One of the heights left is fetched and inserted, in whatever order they come. -/
  | insertBlock (n : Nat)
  /-- The fetch or the query fails. -/
  | fail (n : Nat)
  /-- The queue is idle, and the two heights are read. -/
  | readHeights
  | complete
  | interval
  /-- A crash, or an exception that ends the loop. -/
  | stop
  /-- Electrum comes to see another chain, however different. -/
  | reorganise (view : View)

namespace State
variable (P : Primitives) (genesis : Int) (s : State)

/-- `insertBlock`, for a height of the queue: the header, and the table with it. -/
def inserted (height : Int) : Option (Bytes × List BlockRow) := do
  let header ← s.view.fetch height
  let blocks ← upsertBlock ⟨height, header, calculateBlockHash P header, true⟩ s.blocks
  pure (header, blocks)

/-- An action that is not possible changes nothing. -/
def next : Action → State
  | .start => if s.phase = .down then { s with phase := .ready } else s
  | .getMissingBlocks =>
      if s.phase = .ready then
        { s with phase := .syncingMissing (HeaderSync.getMissingBlocks genesis s.blocks) }
      else s
  | .insertBlock n =>
      match s.phase.todo[n]? with
      | some height =>
          { s with
            phase := s.phase.settle n
            blocks := ((s.inserted P height).map Prod.snd).getD s.blocks }
      | none => s
  | .fail n => { s with phase := s.phase.settle n }
  | .readHeights =>
      match s.phase with
      | .syncingMissing [] =>
          let fromHeight := (latestHeight s.blocks).getD genesis
          { s with phase := .syncingFrom s.view.tip (range fromHeight (s.view.tip + 1)) }
      | _ => s
  | .complete =>
      match s.phase with
      | .syncingFrom toHeight [] => { s with phase := .synced toHeight }
      | _ => s
  | .interval =>
      match s.phase with
      | .synced _ => { s with phase := .ready }
      | _ => s
  | .stop => { s with phase := .down }
  | .reorganise view => { s with view := view }

/-- The height and the header of what an action has stored. -/
def log : Action → List (Int × Bytes)
  | .insertBlock n =>
      match s.phase.todo[n]? with
      | some height => ((s.inserted P height).map fun x => (height, x.1)).toList
      | none => []
  | _ => []

/-- No fetch and no insert fails. -/
def Succeeds : Action → Prop
  | .insertBlock n => ∀ height ∈ s.phase.todo[n]?, (s.inserted P height).isSome = true
  | .fail _ => False
  | _ => True

instance : DecidablePred (s.Succeeds P)
  | .insertBlock n => inferInstanceAs (Decidable (∀ height ∈ s.phase.todo[n]?, _))
  | .fail _ => inferInstanceAs (Decidable False)
  | .start | .getMissingBlocks | .readHeights | .complete | .interval | .stop | .reorganise _ =>
      inferInstanceAs (Decidable True)

end State

def machine (P : Primitives) (genesis : Int) : Machine State Action (Int × Bytes) where
  next := State.next P genesis
  log := State.log P

/-! ## What the queries answer -/

theorem mem_range {first stop height : Int} :
    height ∈ range first stop ↔ first ≤ height ∧ height < stop := by
  rw [range, List.mem_map]
  constructor
  · rintro ⟨k, hk, rfl⟩
    have := List.mem_range.mp hk
    omega
  · rintro ⟨hlow, hhigh⟩
    exact ⟨(height - first).toNat, List.mem_range.mpr (by omega), by omega⟩

theorem hasHeight_iff {blocks : List BlockRow} {height : Int} :
    HasHeight blocks height ↔ ∃ row ∈ blocks, row.height = height :=
  stored_iff

theorem latestHeight_eq_none {blocks : List BlockRow} (h : latestHeight blocks = none) :
    blocks = [] :=
  List.map_eq_nil_iff.mp (List.max?_eq_none_iff.mp h)

theorem latestHeight_eq_some {blocks : List BlockRow} {latest : Int}
    (h : latestHeight blocks = some latest) :
    (∃ row ∈ blocks, row.height = latest) ∧ ∀ row ∈ blocks, row.height ≤ latest := by
  obtain ⟨hmem, hle⟩ := List.max?_eq_some_iff.mp h
  exact ⟨List.mem_map.mp hmem, fun row hrow => hle _ (List.mem_map_of_mem hrow)⟩

theorem mem_getMissingBlocks {genesis height : Int} {blocks : List BlockRow} :
    height ∈ getMissingBlocks genesis blocks ↔
      genesis ≤ height ∧ (∃ row ∈ blocks, height ≤ row.height) ∧ ¬ HasHeight blocks height := by
  unfold getMissingBlocks
  split
  · next hnone =>
      rw [latestHeight_eq_none hnone]
      exact iff_of_false List.not_mem_nil fun ⟨_, ⟨_, hrow, _⟩, _⟩ => nomatch hrow
  · next latest hlatest =>
      obtain ⟨⟨row, hrow, heq⟩, hle⟩ := latestHeight_eq_some hlatest
      rw [List.mem_filter, mem_range, decide_eq_true_eq, and_assoc]
      refine and_congr_right fun _ => and_congr_left fun _ => ⟨fun hlt => ⟨row, hrow, by omega⟩, ?_⟩
      rintro ⟨row', hrow', hle'⟩
      have := hle row' hrow'
      omega

/-! ## What an upsert stores -/

section Upsert
variable {block : BlockRow} {blocks blocks' : List BlockRow}

theorem upsertBlock_cases (h : upsertBlock block blocks = some blocks') :
    Stored BlockRow.key blocks block.key ∧ blocks' = blocks.map (fun row =>
        if row.key = block.key then { row with canonical := block.canonical } else row) ∨
      ¬ Stored BlockRow.key blocks block.key ∧ blocks' = blocks ++ [block] := by
  unfold upsertBlock at h
  split at h
  · next hstored => exact Or.inl ⟨hstored, (Option.some.inj h).symm⟩
  · next hnew =>
      split at h
      · cases h
      · exact Or.inr ⟨hnew, (Option.some.inj h).symm⟩

theorem key_update (block row : BlockRow) :
    (if row.key = block.key then { row with canonical := block.canonical } else row).key =
      row.key := by
  split
  · rfl
  · rfl

theorem stored_upsertBlock (h : upsertBlock block blocks = some blocks') {x : Int × Bytes} :
    Stored BlockRow.key blocks' x ↔ Stored BlockRow.key blocks x ∨ x = block.key := by
  rcases upsertBlock_cases h with ⟨hstored, rfl⟩ | ⟨-, rfl⟩
  · rw [Stored, lookup_map (key_update block), Option.isSome_map]
    exact (or_iff_left_of_imp fun heq => heq ▸ hstored).symm
  · rw [stored_append_iff, stored_singleton_iff]
    exact or_congr_right eq_comm

theorem unique_upsertBlock (h : upsertBlock block blocks = some blocks')
    (hunique : Unique BlockRow.key blocks) : Unique BlockRow.key blocks' := by
  rcases upsertBlock_cases h with ⟨-, rfl⟩ | ⟨hnew, rfl⟩
  · exact hunique.map (key_update block)
  · exact hunique.append_singleton hnew

/-- A property of rows that the new row has, and every row keeps. -/
theorem forall_upsertBlock {p : BlockRow → Prop} (h : upsertBlock block blocks = some blocks')
    (hblock : p block) (hkeep : ∀ row, p row → p { row with canonical := block.canonical })
    (hall : ∀ row ∈ blocks, p row) : ∀ row ∈ blocks', p row := by
  rcases upsertBlock_cases h with ⟨-, rfl⟩ | ⟨-, rfl⟩
  · intro row' hrow'
    obtain ⟨row, hrow, rfl⟩ := List.mem_map.mp hrow'
    split
    · exact hkeep row (hall row hrow)
    · exact hall row hrow
  · intro row hrow
    rcases List.mem_append.mp hrow with hold | hnew
    · exact hall row hold
    · exact List.mem_singleton.mp hnew ▸ hblock

theorem hasHeight_iff_key {height : Int} :
    HasHeight blocks height ↔ ∃ header, Stored BlockRow.key blocks (height, header) := by
  constructor
  · intro h
    obtain ⟨row, hrow, rfl⟩ := hasHeight_iff.mp h
    exact ⟨row.header, stored_of_mem hrow⟩
  · rintro ⟨header, h⟩
    obtain ⟨row, hrow, hkey⟩ := stored_iff.mp h
    exact hasHeight_iff.mpr ⟨row, hrow, congrArg Prod.fst hkey⟩

theorem hasHeight_upsertBlock (h : upsertBlock block blocks = some blocks') {height : Int} :
    HasHeight blocks' height ↔ HasHeight blocks height ∨ height = block.height := by
  simp only [hasHeight_iff_key, stored_upsertBlock h, exists_or, BlockRow.key, Prod.mk.injEq,
    exists_and_left, exists_eq, and_true]

end Upsert

/-! ## An iteration heals every gap -/

section Heal
variable {P : Primitives} {genesis : Int} {s : State}

theorem inserted_eq_some {height : Int} {header : Bytes} {blocks : List BlockRow} :
    s.inserted P height = some (header, blocks) ↔ s.view.fetch height = some header ∧
      upsertBlock ⟨height, header, calculateBlockHash P header, true⟩ s.blocks = some blocks := by
  simp only [State.inserted, Option.bind_eq_bind, Option.bind_eq_some_iff, Option.pure_def,
    Option.some.injEq, Prod.mk.injEq]
  constructor
  · rintro ⟨_, hfetch, _, hblocks, rfl, rfl⟩
    exact ⟨hfetch, hblocks⟩
  · rintro ⟨hfetch, hblocks⟩
    exact ⟨header, hfetch, blocks, hblocks, rfl, rfl⟩

variable (P genesis s) in
/-- **Only an insert touches the table**, and it logs what it has stored. -/
theorem table_next (a : Action) :
    (s.next P genesis a).blocks = s.blocks ∧ s.log P a = [] ∨
      ∃ height header blocks, s.inserted P height = some (header, blocks) ∧
        (s.next P genesis a).blocks = blocks ∧ s.log P a = [(height, header)] := by
  cases a with
  | insertBlock n =>
      dsimp only [State.next, State.log]
      cases hn : s.phase.todo[n]? with
      | none => exact Or.inl ⟨rfl, rfl⟩
      | some height =>
          dsimp only
          cases hinserted : s.inserted P height with
          | none => exact Or.inl ⟨rfl, rfl⟩
          | some x => exact Or.inr ⟨height, x.1, x.2, hinserted, rfl, rfl⟩
  | start | getMissingBlocks =>
      dsimp only [State.next, State.log]
      split
      · exact Or.inl ⟨rfl, rfl⟩
      · exact Or.inl ⟨rfl, rfl⟩
  | readHeights | complete | interval =>
      dsimp only [State.next, State.log]
      split
      · exact Or.inl ⟨rfl, rfl⟩
      · exact Or.inl ⟨rfl, rfl⟩
  | fail n => exact Or.inl ⟨rfl, rfl⟩
  | stop => exact Or.inl ⟨rfl, rfl⟩
  | reorganise view => exact Or.inl ⟨rfl, rfl⟩

/-- Every height up to one has a row, or is still in the queue. -/
def Covers (genesis : Int) (s : State) (bound : Int) : Prop :=
  ∀ height, genesis ≤ height → height ≤ bound →
    HasHeight s.blocks height ∨ height ∈ s.phase.todo

theorem Covers.mono {bound bound' : Int} (h : Covers genesis s bound) (hle : bound' ≤ bound) :
    Covers genesis s bound' :=
  fun height hlow hhigh => h height hlow (by omega)

/-- What the queue has still to fetch, in an iteration in which nothing has failed. -/
structure Healing (genesis : Int) (s : State) : Prop where
  missing : ∀ todo, s.phase = .syncingMissing todo →
    (∀ height ∈ todo, ∃ row ∈ s.blocks, height ≤ row.height) ∧
      ∀ row ∈ s.blocks, Covers genesis s row.height
  forward : ∀ toHeight todo, s.phase = .syncingFrom toHeight todo → Covers genesis s toHeight
  synced : ∀ toHeight, s.phase = .synced toHeight → Covers genesis s toHeight

theorem healing_of_idle (h : s.phase = .down ∨ s.phase = .ready) : Healing genesis s := by
  refine ⟨fun todo heq => ?_, fun toHeight todo heq => ?_, fun toHeight heq => ?_⟩
  all_goals
    rcases h with h | h
    · rw [h] at heq
      cases heq
    · rw [h] at heq
      cases heq

theorem todo_settle (phase : Phase) (n : Nat) : (phase.settle n).todo = phase.todo.eraseIdx n := by
  cases phase <;> rfl

theorem mem_todo_settle {phase : Phase} {n : Nat} {height height' : Int}
    (hn : phase.todo[n]? = some height) (h : height' ∈ phase.todo) :
    height' = height ∨ height' ∈ (phase.settle n).todo := by
  obtain ⟨k, hk⟩ := List.mem_iff_getElem?.mp h
  by_cases heq : k = n
  · subst heq
    exact Or.inl (Option.some.inj (hk.symm.trans hn))
  · rw [todo_settle]
    exact Or.inr (List.mem_eraseIdx_iff_getElem?.mpr ⟨k, heq, hk⟩)

/-- A height that is inserted leaves the queue and has a row. -/
theorem Healing.insertBlock (h : Healing genesis s) {n : Nat} {height : Int} {header : Bytes}
    {blocks : List BlockRow} (hn : s.phase.todo[n]? = some height)
    (hinserted : s.inserted P height = some (header, blocks)) :
    Healing genesis { s with phase := s.phase.settle n, blocks := blocks } := by
  have hupsert := (inserted_eq_some.mp hinserted).2
  have hcovers : ∀ bound, Covers genesis s bound →
      Covers genesis { s with phase := s.phase.settle n, blocks := blocks } bound := by
    intro bound hbound height' hlow hhigh
    rw [hasHeight_upsertBlock hupsert]
    rcases hbound height' hlow hhigh with hstored | hmem
    · exact Or.inl (Or.inl hstored)
    · exact (mem_todo_settle hn hmem).imp_left Or.inr
  obtain ⟨rows, phase, view⟩ := s
  refine ⟨fun todo heq => ?_, fun toHeight todo heq => ?_, fun toHeight heq => ?_⟩
  · cases phase with
    | syncingMissing todo' =>
        obtain ⟨hbelow, hrows⟩ := h.missing todo' rfl
        obtain ⟨top, htop, hle⟩ := hbelow height (List.mem_of_getElem? hn)
        refine ⟨fun height' hmem => ?_, fun row hrow => hcovers _ ?_⟩
        · obtain rfl := Phase.syncingMissing.inj heq
          obtain ⟨row, hrow, hle'⟩ := hbelow height' (List.mem_of_mem_eraseIdx hmem)
          obtain ⟨row', hrow', hsame⟩ := hasHeight_iff.mp ((hasHeight_upsertBlock hupsert).mpr
            (Or.inl (hasHeight_iff.mpr ⟨row, hrow, rfl⟩)))
          exact ⟨row', hrow', hsame ▸ hle'⟩
        · -- the row that is new is of a height below one that was there
          rcases (hasHeight_upsertBlock hupsert).mp (hasHeight_iff.mpr ⟨row, hrow, rfl⟩) with
            hold | hnew
          · obtain ⟨row', hrow', hsame⟩ := hasHeight_iff.mp hold
            exact hsame ▸ hrows row' hrow'
          · exact (hrows top htop).mono (hnew ▸ hle)
    | down | ready | syncingFrom _ _ | synced _ => cases heq
  · cases phase with
    | syncingFrom toHeight' todo' =>
        obtain ⟨rfl, -⟩ := Phase.syncingFrom.inj heq
        exact hcovers _ (h.forward toHeight' todo' rfl)
    | down | ready | syncingMissing _ | synced _ => cases heq
  · cases phase with
    | synced toHeight' => cases hn
    | down | ready | syncingMissing _ | syncingFrom _ _ => cases heq

/-- The two ranges meet: the second one starts at the highest row. -/
theorem Healing.readHeights (h : Healing genesis s) (hs : s.phase = .syncingMissing []) :
    Healing genesis { s with
      phase := .syncingFrom s.view.tip
        (HeaderSync.range ((latestHeight s.blocks).getD genesis) (s.view.tip + 1)) } := by
  refine ⟨fun todo heq => (nomatch heq), fun toHeight todo heq => ?_,
    fun toHeight heq => (nomatch heq)⟩
  obtain ⟨rfl, rfl⟩ := Phase.syncingFrom.inj heq
  intro height hlow hhigh
  by_cases hfrom : (latestHeight s.blocks).getD genesis ≤ height
  · exact Or.inr (mem_range.mpr ⟨hfrom, by omega⟩)
  · left
    cases hlatest : latestHeight s.blocks with
    | none =>
        rw [hlatest, Option.getD_none] at hfrom
        exact absurd hlow hfrom
    | some latest =>
        rw [hlatest, Option.getD_some] at hfrom
        obtain ⟨⟨row, hrow, rfl⟩, -⟩ := latestHeight_eq_some hlatest
        rcases (h.missing [] hs).2 row hrow height hlow (by omega) with hstored | hmem
        · exact hstored
        · rw [hs] at hmem
          cases hmem

theorem Healing.next (h : Healing genesis s) {a : Action} (hok : s.Succeeds P a) :
    Healing genesis (s.next P genesis a) := by
  cases a with
  | start =>
      dsimp only [State.next]
      split
      · exact healing_of_idle (Or.inr rfl)
      · exact h
  | getMissingBlocks =>
      dsimp only [State.next]
      split
      · refine ⟨fun todo heq => ?_, fun toHeight todo heq => (nomatch heq),
          fun toHeight heq => (nomatch heq)⟩
        obtain rfl := Phase.syncingMissing.inj heq
        refine ⟨fun height hmem => (mem_getMissingBlocks.mp hmem).2.1,
          fun row hrow height hlow hhigh => ?_⟩
        by_cases hstored : HasHeight s.blocks height
        · exact Or.inl hstored
        · exact Or.inr (mem_getMissingBlocks.mpr ⟨hlow, ⟨row, hrow, hhigh⟩, hstored⟩)
      · exact h
  | insertBlock n =>
      dsimp only [State.next]
      split
      · next height hn =>
          obtain ⟨⟨header, blocks⟩, hinserted⟩ := Option.isSome_iff_exists.mp (hok height hn)
          rw [hinserted]
          exact h.insertBlock hn hinserted
      · exact h
  | fail n => exact hok.elim
  | readHeights =>
      dsimp only [State.next]
      split
      · next hs => exact h.readHeights hs
      · exact h
  | complete =>
      dsimp only [State.next]
      split
      · next toHeight hs =>
          refine ⟨fun todo heq => (nomatch heq), fun toHeight todo heq => (nomatch heq),
            fun toHeight' heq => ?_⟩
          obtain rfl := Phase.synced.inj heq
          intro height hlow hhigh
          have hcovers := h.forward toHeight [] hs height hlow hhigh
          rwa [hs] at hcovers
      · exact h
  | interval =>
      dsimp only [State.next]
      split
      · exact healing_of_idle (Or.inr rfl)
      · exact h
  | stop => exact healing_of_idle (Or.inl rfl)
  | reorganise view => exact ⟨h.missing, h.forward, h.synced⟩

end Heal

/-- **Header sync heals every gap.**  Whatever the table was left with, an iteration in
which no fetch and no insert fails leaves a row for every height from the genesis height
up to the tip. -/
theorem header_sync_heals (P : Primitives) (genesis : Int) {s : State} (hready : s.phase = .ready)
    {actions : List Action} (hok : (machine P genesis).Along (fun s a => s.Succeeds P a) s actions)
    {toHeight : Int} (hend : ((machine P genesis).run s actions).phase = .synced toHeight) :
    ∀ height, genesis ≤ height → height ≤ toHeight →
      ∃ row ∈ ((machine P genesis).run s actions).blocks, row.height = height := by
  have hheal : Healing genesis ((machine P genesis).run s actions) :=
    Machine.run_invariant (Healing genesis) (fun _ _ ha h => h.next ha) hok
      (healing_of_idle (Or.inr hready))
  intro height hlow hhigh
  rcases hheal.synced toHeight hend height hlow hhigh with hstored | hmem
  · exact hasHeight_iff.mp hstored
  · rw [hend] at hmem
    cases hmem

/-! ## One canonical header for each height -/

/-- Every stored height up to the tip has one canonical row, with the header the chain has
there. -/
def OneCanonical (view : View) (tip : Int) (blocks : List BlockRow) : Prop :=
  ∀ row ∈ blocks, row.height ≤ tip →
    (blocks.filter fun r => r.height = row.height ∧ r.canonical = true).map BlockRow.header =
      [view.header row.height]

instance (view : View) (tip : Int) (blocks : List BlockRow) :
    Decidable (OneCanonical view tip blocks) :=
  inferInstanceAs (Decidable (∀ row ∈ blocks, _ → _))

/-- What the table has to do with the headers that have been fetched for it. -/
structure Kept (history : List (Int × Bytes)) (s : State) : Prop where
  canonical : ∀ row ∈ s.blocks, row.canonical = true
  unique : Unique BlockRow.key s.blocks
  stored : ∀ x, Stored BlockRow.key s.blocks x ↔ x ∈ history

section Canonical
variable {P : Primitives} {genesis : Int} {history : List (Int × Bytes)} {s : State}

theorem kept_start (view : View) : Kept [] (start view) where
  canonical _ hrow := nomatch hrow
  unique := List.nodup_nil
  stored _ := iff_of_false nofun List.not_mem_nil

theorem Kept.of_same (h : Kept history s) {s' : State} (hblocks : s'.blocks = s.blocks) :
    Kept (history ++ []) s' := by
  rw [List.append_nil]
  exact ⟨hblocks ▸ h.canonical, hblocks ▸ h.unique, hblocks ▸ h.stored⟩

theorem Kept.insert (h : Kept history s) {height : Int} {header : Bytes} {blocks : List BlockRow}
    (hinserted : s.inserted P height = some (header, blocks)) {s' : State}
    (hblocks : s'.blocks = blocks) : Kept (history ++ [(height, header)]) s' := by
  subst hblocks
  have hupsert := (inserted_eq_some.mp hinserted).2
  refine ⟨forall_upsertBlock hupsert rfl (fun _ _ => rfl) h.canonical,
    unique_upsertBlock hupsert h.unique, fun x => ?_⟩
  rw [stored_upsertBlock hupsert, h.stored, List.mem_append, List.mem_singleton]
  rfl

theorem Kept.next (h : Kept history s) (a : Action) :
    Kept (history ++ s.log P a) (s.next P genesis a) := by
  rcases table_next P genesis s a with
    ⟨hblocks, hlog⟩ | ⟨height, header, blocks, hinserted, hblocks, hlog⟩
  · rw [hlog]
    exact h.of_same hblocks
  · rw [hlog]
    exact h.insert hinserted hblocks

/-- The canonical rows of a height are all of them. -/
theorem Kept.oneCanonical_iff (h : Kept history s) (tip : Int) :
    OneCanonical s.view tip s.blocks ↔
      ∀ x ∈ history, x.1 ≤ tip → x.2 = s.view.header x.1 := by
  constructor
  · intro hone x hx hle
    obtain ⟨row, hrow, rfl⟩ := stored_iff.mp ((h.stored x).mpr hx)
    have hmem : row.header ∈ (s.blocks.filter fun r =>
        r.height = row.height ∧ r.canonical = true).map BlockRow.header :=
      List.mem_map_of_mem (List.mem_filter.mpr
        ⟨hrow, decide_eq_true ⟨rfl, h.canonical row hrow⟩⟩)
    rw [hone row hrow hle] at hmem
    exact List.mem_singleton.mp hmem
  · intro hheaders row hrow hle
    have hheader : ∀ r ∈ s.blocks, r.height = row.height → r.header = s.view.header row.height := by
      intro r hr hsame
      have hle' : r.height ≤ tip := le_of_eq_of_le hsame hle
      exact (hheaders r.key ((h.stored _).mp (stored_of_mem hr)) hle').trans
        (congrArg s.view.header hsame)
    have hfilter : (s.blocks.filter fun r => r.height = row.height ∧ r.canonical = true) =
        s.blocks.filter fun r => r.key = row.key := by
      refine List.filter_congr fun r hr => decide_eq_decide.mpr ⟨fun hsame => ?_, fun hkey => ?_⟩
      · exact Prod.ext hsame.1 ((hheader r hr hsame.1).trans (hheader row hrow rfl).symm)
      · exact ⟨congrArg Prod.fst hkey, h.canonical r hr⟩
    obtain ⟨r, hr, hkey, hsingle⟩ := h.unique.filter_eq_singleton (stored_of_mem hrow)
    rw [hfilter, hsingle, List.map_singleton, hheader r hr (congrArg Prod.fst hkey)]

end Canonical

/-- **Headers stay canonical.**  In every state of a run, the ends of its iterations
included, the heights up to a tip have one canonical row each, with the header of the
chain, if and only if no header that was fetched for them has been replaced since. -/
theorem one_canonical_iff (P : Primitives) (genesis : Int) (view : View) (actions : List Action)
    (tip : Int) :
    OneCanonical ((machine P genesis).run (start view) actions).view tip
        ((machine P genesis).run (start view) actions).blocks ↔
      ∀ x ∈ (machine P genesis).history (start view) actions, x.1 ≤ tip →
        x.2 = ((machine P genesis).run (start view) actions).view.header x.1 :=
  ((machine P genesis).history_of_step Kept (fun _ _ a h => h.next a) (kept_start view)
    actions).oneCanonical_iff tip

end HeaderSync

/-! ## A chain of four blocks -/

namespace Sample
open HeaderSync

/-- The header at a height of a chain: a version, two hashes, a time, a target and a nonce. -/
def headerOf (chain : UInt8) (height : Int) : Bytes :=
  [0x20, 0, 0, 0] ++ List.replicate 32 chain ++ List.replicate 32 (UInt8.ofNat height.toNat) ++
    [0, 0xf1, 0x53, 0x65] ++ [0xff, 0xff, 0x7f, 0x20] ++ [0, 0, 0, 0]

/-- Headers of a chain, and of one that takes its place from height 3 on. -/
def shortChain : View := ⟨3, headerOf 0xaa⟩

def longChain : View := ⟨4, fun height => headerOf (if height < 3 then 0xaa else 0xbb) height⟩

def headerPrimitives : Primitives := Sha256.primitives fun _ _ => .error 0

def syncing : Machine State HeaderSync.Action (Int × Bytes) := HeaderSync.machine headerPrimitives 1

/-- Heights 1 and 3 are missing, and height 2 is stored. -/
def holed : State :=
  ⟨[⟨2, headerOf 0xaa 2, calculateBlockHash headerPrimitives (headerOf 0xaa 2), true⟩], .ready,
    longChain⟩

/-- The queues are worked off from their ends. -/
def healingActions : List HeaderSync.Action :=
  [.getMissingBlocks, .insertBlock 0, .readHeights, .insertBlock 2, .insertBlock 1, .insertBlock 0,
    .complete]

theorem healingActions_succeed :
    syncing.Along (fun s a => s.Succeeds headerPrimitives a) holed healingActions := by
  refine ⟨?_, ?_, ?_, ?_, ?_, ?_, ?_, trivial⟩
  all_goals decide +kernel

theorem header_sync_heals_holed : (1 : Int) ≤ 4 ∧ ∀ height : Int, 1 ≤ height → height ≤ 4 →
    ∃ row ∈ (syncing.run holed healingActions).blocks, row.height = height :=
  ⟨by decide, header_sync_heals headerPrimitives 1 (show holed.phase = .ready from rfl)
    healingActions_succeed (show (syncing.run holed healingActions).phase = .synced 4 by
      decide +kernel)⟩

/-- One iteration on the short chain, and one on the long chain. -/
def reorganised : State :=
  syncing.run (HeaderSync.start shortChain)
    [.start, .getMissingBlocks, .readHeights, .insertBlock 0, .insertBlock 0, .insertBlock 0,
      .complete, .interval, .reorganise longChain, .getMissingBlocks, .readHeights,
      .insertBlock 0, .insertBlock 0, .complete]

/-- **Height 3 has two canonical headers.** -/
theorem two_canonical : reorganised.phase = .synced 4 ∧
    (reorganised.blocks.filter fun r => r.height = 3 ∧ r.canonical = true).map BlockRow.header =
      [headerOf 0xaa 3, headerOf 0xbb 3] ∧
    ¬ OneCanonical reorganised.view 4 reorganised.blocks := by
  decide +kernel

end Sample
end BitcoinOracle
