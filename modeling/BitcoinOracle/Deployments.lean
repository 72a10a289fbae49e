import BitcoinOracle.CallArguments
import BitcoinOracle.DependencyOrder

/-! # The order of deployments

`mapContractsToDeployTarget` reads the contracts of a `Clarinet.toml`, each with the names
it depends on, and lists the requested ones behind all they depend on.  It follows the
names as they are mentioned and has no guard against cycles, hence the fuel.

Without cycles one unit for each contract, and one more, is enough, and the order is right
(`mapContractsToDeployTarget_order`).
-/
namespace BitcoinOracle
namespace Deployments

open DependencyOrder

/-! ## The contracts and their targets -/

structure Contract where
  path : Text
  dependsOn : Option (List Text)
  deriving DecidableEq

/-- The object `contracts`, its entries in the order of `Object.keys`. -/
structure Contracts where
  entries : List (Text × Contract)
  nodup : (entries.map Prod.fst).Nodup

def Contracts.keys (contracts : Contracts) : List Text := contracts.entries.map Prod.fst

structure DeployContractTarget where
  contractName : Text
  contractPath : Text
  deriving DecidableEq

structure DeployContract where
  path : Text
  name : Text
  deriving DecidableEq

inductive Thrown where
  | error (message : Text)
  /-- Of `path.resolve`, for a path that is not a string. -/
  | typeError
  deriving DecidableEq

/-- The names every object has. -/
def objectPrototype : List Text :=
  ["constructor".toList, "__defineGetter__".toList, "__defineSetter__".toList,
    "hasOwnProperty".toList, "__lookupGetter__".toList, "__lookupSetter__".toList,
    "isPrototypeOf".toList, "propertyIsEnumerable".toList, "toString".toList,
    "valueOf".toList, "__proto__".toList, "toLocaleString".toList]

def executorDao : Text := "executor-dao".toList

/-- Without a result, the recursion is still under way. -/
abbrev Recursion := ExceptT Thrown Option

section
variable (contracts : Contracts)

def findDeps : Nat → Text → Recursion (List Text)
  | 0, _ => ExceptT.mk none
  | fuel + 1, name =>
      match contracts.entries.lookup name with
      | some contract =>
          match contract.dependsOn with
          | none => pure [name]
          | some dependsOn =>
              if executorDao ∈ dependsOn then
                throw (.error (name ++ " has executor-dao as a dependency".toList))
              else do
                let found ← dependsOn.mapM (findDeps fuel)
                pure (found.flatten ++ [name])
      | none =>
          -- what every object inherits is there, and depends on nothing
          if name ∈ objectPrototype then pure [name]
          else throw (.error ("Could not find contract ".toList ++ name))

/-- `path.resolve` of the directory is `resolve`. -/
def target (resolve : Text → Text) (contractName : Text) : Recursion DeployContractTarget :=
  match contracts.entries.lookup contractName with
  | some contract => pure ⟨contractName, resolve contract.path⟩
  | none => throw .typeError

def mapContractsToDeployTarget (resolve : Text → Text) (fuel : Nat)
    (contractNames : List Text) : Recursion (List DeployContractTarget) := do
  let contractsKeys := contracts.keys.filter fun c => c ∈ contractNames
  let found ← contractsKeys.mapM (findDeps contracts fuel)
  found.flatten.eraseDups.mapM (target contracts resolve)

def deployContracts (resolve : Text → Text) (fuel : Nat) (contractNames : List Text) :
    Recursion (List DeployContract) := do
  let result ← mapContractsToDeployTarget contracts resolve fuel contractNames
  pure (result.map fun r => ⟨r.contractPath, r.contractName⟩)

/-- The names a contract depends on. -/
def dependencies (name : Text) : List Text :=
  ((contracts.entries.lookup name).bind Contract.dependsOn).getD []

end

/-! ## Recursion over lists -/

theorem mapM_eq_pure {α β : Type} {f : α → Recursion β} {g : α → β} {l : List α}
    (h : ∀ a ∈ l, f a = pure (g a)) : l.mapM f = pure (l.map g) := by
  induction l with
  | nil => rfl
  | cons a l ih =>
      rw [List.mapM_cons, h a List.mem_cons_self,
        ih fun b hb => h b (List.mem_cons_of_mem a hb), pure_bind, pure_bind, List.map_cons]

/-! ## One contract -/

section
variable {contracts : Contracts} {name : Text}

theorem lookup_of_mem_keys (h : name ∈ contracts.keys) :
    ∃ contract, contracts.entries.lookup name = some contract := by
  obtain ⟨entry, hentry, rfl⟩ := List.mem_map.mp h
  refine Option.isSome_iff_exists.mp ?_
  rw [List.lookup_isSome_iff]
  exact ⟨entry, hentry, by simp⟩

/-- **One call.**  If every dependency is found, the contract is behind all of them. -/
theorem findDeps_succ {fuel : Nat} {g : Text → List Text} (hname : name ∈ contracts.keys)
    (hdao : executorDao ∉ dependencies contracts name)
    (h : ∀ b ∈ dependencies contracts name, findDeps contracts fuel b = pure (g b)) :
    findDeps contracts (fuel + 1) name =
      pure ((dependencies contracts name).flatMap g ++ [name]) := by
  obtain ⟨contract, hlookup⟩ := lookup_of_mem_keys hname
  have hdeps : dependencies contracts name = contract.dependsOn.getD [] := by
    simp [dependencies, hlookup]
  rw [hdeps] at hdao h ⊢
  simp only [findDeps, hlookup]
  cases hnames : contract.dependsOn with
  | none => simp
  | some dependsOn =>
      rw [hnames, Option.getD_some] at hdao h
      dsimp only
      rw [Option.getD_some, if_neg hdao, mapM_eq_pure h, pure_bind, List.flatMap_def]

end

/-! ## All contracts -/

/-- No cycles, nothing missing, and nobody depends on `executor-dao`. -/
structure Deployable (contracts : Contracts) : Prop where
  acyclic : ∀ name, ¬ Relation.TransGen (Needs (dependencies contracts)) name name
  exist : ∀ name, ∀ b ∈ dependencies contracts name, b ∈ contracts.keys
  noDao : ∀ name, executorDao ∉ dependencies contracts name

namespace Deployable
variable {contracts : Contracts} (h : Deployable contracts)
include h

/-- What is found for a contract, with fuel above its rank: it and all it needs. -/
theorem exists_findDeps (n : Nat) {name : Text} (hname : name ∈ contracts.keys)
    (hrank : rank (dependencies contracts) contracts.keys name < n) :
    ∃ l, (∀ fuel, rank (dependencies contracts) contracts.keys name < fuel →
        findDeps contracts fuel name = pure l) ∧
      DepsFirst (dependencies contracts) l ∧
      ∀ b, b ∈ l ↔ Relation.ReflTransGen (Needs (dependencies contracts)) name b := by
  induction n generalizing name with
  | zero => omega
  | succ n ih =>
      have hlt : ∀ b ∈ dependencies contracts name,
          rank (dependencies contracts) contracts.keys b <
            rank (dependencies contracts) contracts.keys name :=
        fun b hb => rank_lt h.acyclic hb (h.exist name b hb)
      have hfound : ∀ b, b ∈ dependencies contracts name →
          ∃ l, (∀ fuel, rank (dependencies contracts) contracts.keys b < fuel →
              findDeps contracts fuel b = pure l) ∧
            DepsFirst (dependencies contracts) l ∧
            ∀ c, c ∈ l ↔ Relation.ReflTransGen (Needs (dependencies contracts)) b c := by
        intro b hb
        have := hlt b hb
        exact ih (h.exist name b hb) (by omega)
      choose! g hfuel hfirst hmem using hfound
      refine ⟨(dependencies contracts name).flatMap g ++ [name], ?_, ?_, ?_⟩
      · rintro (_ | fuel) hfuelName
        · omega
        · refine findDeps_succ hname (h.noDao name) fun b hb => hfuel b hb fuel ?_
          have := hlt b hb
          omega
      · -- a dependency is at the end of the list that was found for it
        refine depsFirst_concat.mpr ⟨DepsFirst.flatMap hfirst, fun b hb => ?_⟩
        exact List.mem_flatMap.mpr ⟨b, hb, (hmem b hb b).mpr .refl⟩
      · intro c
        rw [List.mem_append, List.mem_flatMap, List.mem_singleton,
          Relation.ReflTransGen.cases_head_iff]
        constructor
        · rintro (⟨b, hb, hc⟩ | rfl)
          · exact Or.inr ⟨b, hb, (hmem b hb c).mp hc⟩
          · exact Or.inl rfl
        · rintro (rfl | ⟨b, hb, hc⟩)
          · exact Or.inr rfl
          · exact Or.inl ⟨b, hb, (hmem b hb c).mpr hc⟩

/-- Everything that is needed exists. -/
theorem mem_keys_of_needs {name b : Text} (hname : name ∈ contracts.keys)
    (hb : Relation.ReflTransGen (Needs (dependencies contracts)) name b) :
    b ∈ contracts.keys := by
  cases hb with
  | refl => exact hname
  | tail _ hlast => exact h.exist _ b hlast

end Deployable

theorem mem_dependencies {contracts : Contracts} {name b : Text}
    (h : b ∈ dependencies contracts name) :
    ∃ contract, (name, contract) ∈ contracts.entries ∧ b ∈ contract.dependsOn.getD [] := by
  unfold dependencies at h
  cases hlookup : contracts.entries.lookup name with
  | none => simp [hlookup] at h
  | some contract =>
      obtain ⟨l, l', hentries, -⟩ := List.lookup_eq_some_iff.mp hlookup
      exact ⟨contract, by simp [hentries], by simpa [hlookup] using h⟩

/-- A file can be checked entry by entry, with a measure for the cycles. -/
theorem deployable_of_entries {contracts : Contracts} (f : Text → Nat)
    (h : ∀ entry ∈ contracts.entries, ∀ b ∈ entry.2.dependsOn.getD [],
      f b < f entry.1 ∧ b ∈ contracts.keys ∧ b ≠ executorDao) : Deployable contracts where
  acyclic := acyclic_of_measure f fun name b hb => by
    obtain ⟨contract, hentry, hb⟩ := mem_dependencies hb
    exact (h _ hentry b hb).1
  exist name b hb := by
    obtain ⟨contract, hentry, hb⟩ := mem_dependencies hb
    exact (h _ hentry b hb).2.1
  noDao name hdao := by
    obtain ⟨contract, hentry, hb⟩ := mem_dependencies hdao
    exact (h _ hentry _ hb).2.2 rfl

/-- The targets of some contracts, all of which exist. -/
theorem mapM_target {contracts : Contracts} {names : List Text} (resolve : Text → Text)
    (h : ∀ name ∈ names, name ∈ contracts.keys) :
    ∃ targets, names.mapM (target contracts resolve) = pure targets ∧
      targets.map DeployContractTarget.contractName = names ∧
      ∀ t ∈ targets, ∃ contract, contracts.entries.lookup t.contractName = some contract ∧
        t.contractPath = resolve contract.path := by
  let g (name : Text) : DeployContractTarget :=
    ⟨name, ((contracts.entries.lookup name).map fun c => resolve c.path).getD []⟩
  refine ⟨names.map g, mapM_eq_pure fun name hname => ?_, ?_, fun t ht => ?_⟩
  · obtain ⟨contract, hlookup⟩ := lookup_of_mem_keys (h name hname)
    simp [target, g, hlookup]
  · simp [g, Function.comp_def]
  · obtain ⟨name, hname, rfl⟩ := List.mem_map.mp ht
    obtain ⟨contract, hlookup⟩ := lookup_of_mem_keys (h name hname)
    exact ⟨contract, hlookup, by simp [g, hlookup]⟩

/-- **The order of deployment.**  Where there are no cycles, everything that is mentioned
exists and nobody depends on `executor-dao`, the recursion ends.  Its targets are, once
each, the requested contracts that exist and all that these need, each one after what it
depends on. -/
theorem mapContractsToDeployTarget_order (contracts : Contracts) (h : Deployable contracts)
    (resolve : Text → Text) (contractNames : List Text) :
    ∃ targets, (∀ fuel, contracts.entries.length < fuel →
        mapContractsToDeployTarget contracts resolve fuel contractNames = pure targets) ∧
      (targets.map DeployContractTarget.contractName).Nodup ∧
      (∀ name, name ∈ targets.map DeployContractTarget.contractName ↔
        ∃ requested ∈ contractNames, requested ∈ contracts.keys ∧
          Relation.ReflTransGen (Needs (dependencies contracts)) requested name) ∧
      DepsFirst (dependencies contracts) (targets.map DeployContractTarget.contractName) ∧
      ∀ t ∈ targets, ∃ contract, contracts.entries.lookup t.contractName = some contract ∧
        t.contractPath = resolve contract.path := by
  let requested := contracts.keys.filter fun c => c ∈ contractNames
  have hrequested : ∀ name ∈ requested, name ∈ contracts.keys :=
    fun name hname => List.mem_of_mem_filter hname
  have hfound : ∀ name, name ∈ requested → _ := fun name hname =>
    h.exists_findDeps _ (hrequested name hname) (Nat.lt_succ_self _)
  choose! g hfuel hfirst hmem using hfound
  have hnames : ∀ name, name ∈ (requested.flatMap g).eraseDups ↔ ∃ r ∈ contractNames,
      r ∈ contracts.keys ∧ Relation.ReflTransGen (Needs (dependencies contracts)) r name := by
    intro name
    rw [List.mem_eraseDups, List.mem_flatMap]
    constructor
    · rintro ⟨r, hr, hname⟩
      obtain ⟨hkey, hrequest⟩ := List.mem_filter.mp hr
      exact ⟨r, of_decide_eq_true hrequest, hkey, (hmem r hr name).mp hname⟩
    · rintro ⟨r, hrequest, hkey, hname⟩
      have hr : r ∈ requested := List.mem_filter.mpr ⟨hkey, decide_eq_true hrequest⟩
      exact ⟨r, hr, (hmem r hr name).mpr hname⟩
  have hexist : ∀ name ∈ (requested.flatMap g).eraseDups, name ∈ contracts.keys := by
    intro name hname
    obtain ⟨r, -, hkey, hneeds⟩ := (hnames name).mp hname
    exact h.mem_keys_of_needs hkey hneeds
  obtain ⟨targets, htargets, hsame, hpaths⟩ := mapM_target resolve hexist
  refine ⟨targets, fun fuel hlength => ?_, ?_, ?_, ?_, hpaths⟩
  · have hrank : ∀ name, rank (dependencies contracts) contracts.keys name < fuel := by
      intro name
      calc rank (dependencies contracts) contracts.keys name
          ≤ contracts.keys.length := rank_le_length
        _ = contracts.entries.length := List.length_map ..
        _ < fuel := hlength
    have hrecursion : requested.mapM (findDeps contracts fuel) = pure (requested.map g) :=
      mapM_eq_pure fun name hname => hfuel name hname fuel (hrank name)
    rw [mapContractsToDeployTarget, hrecursion, pure_bind, ← List.flatMap_def, htargets]
  · rw [hsame]
    exact KeyedTable.nodup_eraseDups _
  · rw [hsame]
    exact hnames
  · rw [hsame]
    exact (DepsFirst.flatMap hfirst).eraseDups

/-! ## The repository's own file -/

def clarinetNames : List Text :=
  ["clarity-bitcoin-v1-03".toList, "utils".toList, "oracle-v1-03".toList,
    "oracle-registry-v1-01".toList, "clarity-bitcoin-v1-04".toList, "oracle-v1-04".toList,
    "oracle-registry-v1-02".toList, "oracle-v1-05".toList, "clarity-bitcoin-v1-05".toList,
    "oracle-v1-06".toList, "clarity-bitcoin-v1-07".toList]

def clarinetDependsOn : List (Option (List Text)) :=
  [none, none, some ["clarity-bitcoin-v1-03".toList, "oracle-registry-v1-01".toList], some [],
    none, some ["clarity-bitcoin-v1-04".toList, "oracle-registry-v1-01".toList],
    some ["oracle-registry-v1-01".toList],
    some ["clarity-bitcoin-v1-04".toList, "oracle-registry-v1-01".toList], none,
    some ["clarity-bitcoin-v1-05".toList, "oracle-registry-v1-02".toList], none]

def clarinetEntries : List (Text × Contract) :=
  (clarinetNames.zip clarinetDependsOn).map fun (name, dependsOn) =>
    (name, ⟨"contracts/".toList ++ name ++ ".clar".toList, dependsOn⟩)

theorem nodup_clarinetEntries : (clarinetEntries.map Prod.fst).Nodup := by decide +kernel

def clarinet : Contracts := ⟨clarinetEntries, nodup_clarinetEntries⟩

/-- The oracles stand above their libraries and registries, one registry above another. -/
def clarinetHeight (name : Text) : Nat :=
  if name = "oracle-registry-v1-02".toList then 1
  else if (dependencies clarinet name).isEmpty then 0 else 2

theorem deployable_clarinet : Deployable clarinet :=
  deployable_of_entries clarinetHeight (by decide +kernel)

theorem mapContractsToDeployTarget_order_clarinet :
    Deployable clarinet ∧ ∃ targets,
      (∀ fuel, 11 < fuel →
        mapContractsToDeployTarget clarinet id fuel ["oracle-v1-06".toList] = pure targets) ∧
      (targets.map DeployContractTarget.contractName).Nodup ∧
      DepsFirst (dependencies clarinet) (targets.map DeployContractTarget.contractName) :=
  have ⟨targets, hfuel, hnodup, _, hfirst, _⟩ :=
    mapContractsToDeployTarget_order clarinet deployable_clarinet id ["oracle-v1-06".toList]
  ⟨deployable_clarinet, targets, hfuel, hnodup, hfirst⟩

example : (deployContracts clarinet id 12 ["oracle-v1-06".toList]).run.map (·.map
      (·.map DeployContract.name)) =
    some (.ok ["clarity-bitcoin-v1-05".toList, "oracle-registry-v1-01".toList,
      "oracle-registry-v1-02".toList, "oracle-v1-06".toList]) := by decide +kernel

end Deployments
end BitcoinOracle
