import Aft.Search.Trigrams

/-!
# The trigram query of a regular expression

The intermediate representation of a regular expression, what it matches, and the query that
`decompose_regex` builds from it: runs of bytes that every match contains, and groups of runs of
which every match contains one (`buildQuery_describes`), turned into trigrams with their filters.
-/

namespace Aft.Search

open List Option

/-! ## Expressions -/

/-- A class is the set of byte strings that it matches, a look-around the positions of a text at
which it holds. -/
inductive Hir where
  | empty
  | literal (bytes : List UInt8)
  | charClass (accepts : List UInt8 → Bool)
  | look (holds : List UInt8 → ℕ → Bool)
  | repetition (min : ℕ) (max : Option ℕ) (sub : Hir)
  | capture (sub : Hir)
  | concat (parts : List Hir)
  | alternation (parts : List Hir)

/-- A relation between positions, a number of times in a row. -/
def Repeats (step : ℕ → ℕ → Prop) : ℕ → ℕ → ℕ → Prop
  | 0, i, j => i = j
  | count + 1, i, j => ∃ m, step i m ∧ Repeats step count m j

mutual

/-- The expression matches a text between two positions. -/
def Hir.Matches (content : List UInt8) : Hir → ℕ → ℕ → Prop
  | .empty, i, j => i = j
  | .literal bytes, i, j => j = i + bytes.length ∧ bytes <+: content.drop i
  | .charClass accepts, i, j =>
    i ≤ j ∧ j ≤ content.length ∧ accepts ((content.take j).drop i) = true
  | .look holds, i, j => i = j ∧ holds content i = true
  | .repetition min max sub, i, j =>
    ∃ count, min ≤ count ∧ (∀ bound, max = some bound → count ≤ bound) ∧
      Repeats (Hir.Matches content sub) count i j
  | .capture sub, i, j => Hir.Matches content sub i j
  | .concat parts, i, j => MatchesAll content parts i j
  | .alternation parts, i, j => MatchesAny content parts i j

def MatchesAll (content : List UInt8) : List Hir → ℕ → ℕ → Prop
  | [], i, j => i = j
  | part :: parts, i, j => ∃ m, Hir.Matches content part i m ∧ MatchesAll content parts m j

def MatchesAny (content : List UInt8) : List Hir → ℕ → ℕ → Prop
  | [], _, _ => False
  | part :: parts, i, j => Hir.Matches content part i j ∨ MatchesAny content parts i j

end

/-! ## Runs -/

structure QueryBuild where
  andRuns : List (List UInt8)
  orGroups : List (List (List UInt8))
deriving DecidableEq, Repr

def QueryBuild.default : QueryBuild := ⟨[], []⟩

def QueryBuild.extend (build other : QueryBuild) : QueryBuild :=
  ⟨build.andRuns ++ other.andRuns, build.orGroups ++ other.orGroups⟩

mutual

/-- Runs of which every match contains one. -/
def guaranteedRunChoices : Hir → Option (List (List UInt8))
  | .literal bytes => if 3 ≤ bytes.length then some [bytes] else none
  | .capture sub => guaranteedRunChoices sub
  | .concat parts => if concatRuns parts = [] then none else some (concatRuns parts)
  | .alternation parts =>
    (alternationRuns parts).bind fun runs => if runs = [] then none else some runs
  | .repetition min _ sub => if min = 0 then none else guaranteedRunChoices sub
  | .empty | .charClass _ | .look _ => none

def concatRuns : List Hir → List (List UInt8)
  | [] => []
  | part :: parts => (guaranteedRunChoices part).getD [] ++ concatRuns parts

def alternationRuns : List Hir → Option (List (List UInt8))
  | [] => some []
  | part :: parts =>
    (guaranteedRunChoices part).bind fun runs => (alternationRuns parts).map (runs ++ ·)

end

mutual

def buildQuery : Hir → QueryBuild
  | .literal bytes => if 3 ≤ bytes.length then ⟨[bytes], []⟩ else .default
  | .capture sub => buildQuery sub
  | .concat parts => buildConcat parts
  | .alternation parts =>
    match alternationRuns parts with
    | none => .default
    | some group => if group = [] then .default else ⟨[], [group]⟩
  | .repetition min _ sub => if min = 0 then .default else buildQuery sub
  | .empty | .charClass _ | .look _ => .default

def buildConcat : List Hir → QueryBuild
  | [] => .default
  | part :: parts => (buildQuery part).extend (buildConcat parts)

end

/-! ## Trigrams with filters -/

def trigramFilters (run : List UInt8) : List (ℕ × PostingFilter) := (trigramFilterMap run false).entries

structure RegexQuery where
  andTrigrams : List ℕ
  orGroups : List (List ℕ)
  andFilters : SortedMap ℕ PostingFilter
  orFilters : List (SortedMap ℕ PostingFilter)
deriving DecidableEq

def RegexQuery.default : RegexQuery := ⟨[], [], .empty, []⟩

def addRunToAndQuery (query : RegexQuery) (run : List UInt8) : RegexQuery :=
  (trigramFilters run).foldl (fun query entry =>
    { query with
      andTrigrams := if entry.1 ∈ query.andTrigrams then query.andTrigrams
        else query.andTrigrams ++ [entry.1]
      andFilters := mergeEntry query.andFilters entry.1 entry.2 }) query

/-- The filters of a group of runs; its trigrams are the keys. -/
def groupFilters (group : List (List UInt8)) : SortedMap ℕ PostingFilter :=
  mergeAll Prod.fst Prod.snd .empty (group.flatMap trigramFilters)

def addOrGroup (query : RegexQuery) (group : List (List UInt8)) : RegexQuery :=
  let filters := groupFilters group
  if filters.keys = [] then query
  else { query with
    orGroups := query.orGroups ++ [filters.keys]
    orFilters := query.orFilters ++ [filters] }

def QueryBuild.intoQuery (build : QueryBuild) : RegexQuery :=
  build.orGroups.foldl addOrGroup (build.andRuns.foldl addRunToAndQuery .default)

/-- `decompose_regex` on a pattern that the parser accepts. -/
def decomposeRegex (hir : Hir) : RegexQuery := (buildQuery hir).intoQuery

/-! ## What a match contains -/

/-- A text contains all runs of a query, and one of each group. -/
structure QueryBuild.FoundIn (build : QueryBuild) (content : List UInt8) : Prop where
  runs : ∀ run ∈ build.andRuns, run <:+: content
  groups : ∀ group ∈ build.orGroups, ∃ run ∈ group, run <:+: content

open QueryBuild

theorem QueryBuild.foundIn_default (content : List UInt8) : default.FoundIn content :=
  ⟨nofun, nofun⟩

theorem QueryBuild.FoundIn.extend {build other : QueryBuild} {content : List UInt8}
    (h : build.FoundIn content) (ho : other.FoundIn content) :
    (build.extend other).FoundIn content :=
  ⟨forall_mem_append.2 ⟨h.runs, ho.runs⟩, forall_mem_append.2 ⟨h.groups, ho.groups⟩⟩

theorem infix_of_literal {bytes content : List UInt8} {i : ℕ} (h : bytes <+: content.drop i) :
    bytes <:+: content :=
  h.isInfix.trans (drop_suffix i content).isInfix

theorem Repeats.exists_step {step : ℕ → ℕ → Prop} {count i j : ℕ} (h : Repeats step count i j)
    (hc : count ≠ 0) : ∃ i j, step i j := by
  cases count with
  | zero => exact absurd rfl hc
  | succ count =>
    obtain ⟨m, hs, -⟩ := h
    exact ⟨i, m, hs⟩

variable {content : List UInt8}

/-- Runs long enough for a trigram, one of which is in a text with a match. -/
structure Guaranteed (content : List UInt8) (Occurs : ℕ → ℕ → Prop) (runs : List (List UInt8)) :
    Prop where
  long : ∀ run ∈ runs, 3 ≤ run.length
  found : ∀ i j, Occurs i j → ∃ run ∈ runs, run <:+: content

mutual

theorem guaranteedRunChoices_spec : ∀ (hir : Hir) (runs : List (List UInt8)),
    guaranteedRunChoices hir = some runs → Guaranteed content (hir.Matches content) runs
  | .literal bytes, runs, hr => by
    rw [guaranteedRunChoices] at hr
    split at hr
    · rename_i hl
      obtain rfl := some_inj.1 hr
      refine ⟨forall_mem_singleton.2 hl, fun i j hm => ?_⟩
      exact ⟨bytes, mem_singleton_self _, infix_of_literal hm.2⟩
    · cases hr
  | .capture sub, runs, hr => guaranteedRunChoices_spec sub runs hr
  | .concat parts, runs, hr => by
    rw [guaranteedRunChoices] at hr
    split at hr
    · cases hr
    · rename_i hne
      obtain rfl := some_inj.1 hr
      obtain ⟨hl, hf⟩ := concatRuns_spec parts
      exact ⟨hl, fun i j hm => hf i j hm hne⟩
  | .alternation parts, runs, hr => by
    rw [guaranteedRunChoices, bind_eq_some_iff] at hr
    obtain ⟨all, hall, hr⟩ := hr
    split at hr
    · cases hr
    · obtain rfl := some_inj.1 hr
      exact alternationRuns_spec parts all hall
  | .repetition min max sub, runs, hr => by
    rw [guaranteedRunChoices] at hr
    split at hr
    · cases hr
    · obtain ⟨hl, hf⟩ := guaranteedRunChoices_spec sub runs hr
      refine ⟨hl, ?_⟩
      rintro i j ⟨count, hmin, -, hre⟩
      obtain ⟨i, j, hs⟩ := hre.exists_step (by omega)
      exact hf i j hs
  | .empty, _, hr | .charClass _, _, hr | .look _, _, hr => by
    cases hr

theorem concatRuns_spec : ∀ (parts : List Hir), (∀ run ∈ concatRuns parts, 3 ≤ run.length) ∧
    ∀ i j, MatchesAll content parts i j → concatRuns parts ≠ [] →
      ∃ run ∈ concatRuns parts, run <:+: content
  | [] => ⟨nofun, fun _ _ _ hne => absurd rfl hne⟩
  | part :: parts => by
    obtain ⟨hl, hf⟩ := concatRuns_spec parts
    rw [concatRuns]
    cases hc : guaranteedRunChoices part with
    | some runs =>
      obtain ⟨hlp, hfp⟩ := guaranteedRunChoices_spec part runs hc
      refine ⟨forall_mem_append.2 ⟨hlp, hl⟩, ?_⟩
      rintro i j ⟨m, hp, -⟩ -
      obtain ⟨run, hrun, hin⟩ := hfp i m hp
      exact ⟨run, mem_append_left _ hrun, hin⟩
    | none =>
      refine ⟨hl, ?_⟩
      rintro i j ⟨m, -, hpa⟩ hne
      exact hf m j hpa hne

theorem alternationRuns_spec : ∀ (parts : List Hir) (runs : List (List UInt8)),
    alternationRuns parts = some runs → Guaranteed content (MatchesAny content parts) runs
  | [], runs, hr => by
    obtain rfl := some_inj.1 hr
    exact ⟨nofun, fun _ _ hm => absurd hm id⟩
  | part :: parts, runs, hr => by
    rw [alternationRuns, bind_eq_some_iff] at hr
    obtain ⟨first, hf, hr⟩ := hr
    obtain ⟨rest, hre, rfl⟩ := map_eq_some_iff.1 hr
    obtain ⟨hl, hfo⟩ := guaranteedRunChoices_spec part first hf
    obtain ⟨hlr, hfr⟩ := alternationRuns_spec parts rest hre
    refine ⟨forall_mem_append.2 ⟨hl, hlr⟩, ?_⟩
    rintro i j (hp | hpa)
    · obtain ⟨run, hrun, hin⟩ := hfo i j hp
      exact ⟨run, mem_append_left _ hrun, hin⟩
    · obtain ⟨run, hrun, hin⟩ := hfr i j hpa
      exact ⟨run, mem_append_right _ hrun, hin⟩

end

/-- A query of an expression: the runs of its groups have trigrams, and it is found in a text with a
match. -/
structure QueryBuild.Describes (content : List UInt8) (Occurs : ℕ → ℕ → Prop) (build : QueryBuild) :
    Prop where
  long : ∀ group ∈ build.orGroups, ∀ run ∈ group, 3 ≤ run.length
  found : ∀ i j, Occurs i j → build.FoundIn content

theorem QueryBuild.describes_default {Occurs : ℕ → ℕ → Prop} : default.Describes content Occurs :=
  ⟨nofun, fun _ _ _ => foundIn_default content⟩

mutual

theorem buildQuery_describes : ∀ hir : Hir, (buildQuery hir).Describes content (hir.Matches content)
  | .literal bytes => by
    rw [buildQuery]
    split
    · refine ⟨nofun, fun i j hm => ⟨fun run hrun => ?_, nofun⟩⟩
      rw [mem_singleton.1 hrun]
      exact infix_of_literal hm.2
    · exact describes_default
  | .capture sub => buildQuery_describes sub
  | .concat parts => buildConcat_describes parts
  | .alternation parts => by
    rw [buildQuery]
    split
    · exact describes_default
    · rename_i group hg
      obtain ⟨hl, hf⟩ := alternationRuns_spec parts group hg
      split
      · exact describes_default
      · exact ⟨forall_mem_singleton.2 hl, fun i j hm => ⟨nofun, forall_mem_singleton.2 (hf i j hm)⟩⟩
  | .repetition min max sub => by
    rw [buildQuery]
    split
    · exact describes_default
    · obtain ⟨hl, hf⟩ := buildQuery_describes sub
      refine ⟨hl, ?_⟩
      rintro i j ⟨count, hmin, -, hr⟩
      obtain ⟨i, j, hs⟩ := hr.exists_step (by omega)
      exact hf i j hs
  | .empty | .charClass _ | .look _ => describes_default

theorem buildConcat_describes : ∀ parts : List Hir,
    (buildConcat parts).Describes content (MatchesAll content parts)
  | [] => describes_default
  | part :: parts => by
    obtain ⟨hl, hf⟩ := buildQuery_describes part
    obtain ⟨hlr, hfr⟩ := buildConcat_describes parts
    refine ⟨forall_mem_append.2 ⟨hl, hlr⟩, ?_⟩
    rintro i j ⟨m, hp, hpa⟩
    exact (hf i m hp).extend (hfr m j hpa)

end

theorem scanTrigrams_ne_nil {run : List UInt8} (h : 3 ≤ run.length) : scanTrigrams run ≠ [] := by
  match run, h with
  | a :: b :: c :: rest, _ =>
    exact cons_ne_nil _ _

/-! ## The parts of a query -/

theorem mem_trigramFilters {run : List UInt8} {entry : ℕ × PostingFilter} :
    entry ∈ trigramFilters run ↔ (trigramFilterMap run false).find? entry.1 = some entry.2 :=
  SortedMap.find?_eq_some_iff.symm

/-- A query whose required trigrams come from a list of entries, and its groups from a list of
filters. -/
structure RegexQuery.BuiltFrom (query : RegexQuery) (required : List (ℕ × PostingFilter))
    (groups : List (SortedMap ℕ PostingFilter)) : Prop where
  andTrigrams : ∀ t, t ∈ query.andTrigrams → ∃ entry ∈ required, entry.1 = t
  andFilters : query.andFilters = mergeAll Prod.fst Prod.snd .empty required
  orGroups : query.orGroups = groups.map (·.keys)
  orFilters : query.orFilters = groups

namespace RegexQuery.BuiltFrom

variable {query : RegexQuery} {required : List (ℕ × PostingFilter)}
  {groups : List (SortedMap ℕ PostingFilter)}

section

variable (h : query.BuiltFrom required groups)
include h

theorem addRun (run : List UInt8) :
    (addRunToAndQuery query run).BuiltFrom (required ++ trigramFilters run) groups := by
  unfold addRunToAndQuery
  generalize trigramFilters run = entries
  induction entries generalizing query required with
  | nil => simpa using h
  | cons entry entries ih =>
    have hs : RegexQuery.BuiltFrom { query with
        andTrigrams := if entry.1 ∈ query.andTrigrams then query.andTrigrams
          else query.andTrigrams ++ [entry.1]
        andFilters := mergeEntry query.andFilters entry.1 entry.2 } (required ++ [entry]) groups := by
      refine ⟨fun t ht => ?_, ?_, h.orGroups, h.orFilters⟩
      · have hmem : t ∈ query.andTrigrams ∨ t = entry.1 := by
          split at ht
          · exact .inl ht
          · simpa using ht
        rcases hmem with hold | rfl
        · obtain ⟨other, ho, heq⟩ := h.andTrigrams t hold
          exact ⟨other, mem_append_left _ ho, heq⟩
        · exact ⟨entry, mem_append_right _ (mem_singleton_self _), rfl⟩
      · rw [h.andFilters]
        simp [mergeAll]
    have hr := ih hs
    rwa [append_assoc] at hr

theorem addRuns (runs : List (List UInt8)) :
    (runs.foldl addRunToAndQuery query).BuiltFrom (required ++ runs.flatMap trigramFilters)
      groups := by
  induction runs generalizing query required with
  | nil => simpa using h
  | cons run runs ih =>
    have hr := ih (h.addRun run)
    rwa [append_assoc] at hr

theorem addGroup (group : List (List UInt8)) :
    (addOrGroup query group).BuiltFrom required
      (groups ++ [groupFilters group].filter (·.keys ≠ [])) := by
  unfold addOrGroup
  dsimp only
  split <;> rename_i hk
  · simpa [hk] using h
  · rw [filter_cons_of_pos (by simpa using hk)]
    exact ⟨h.andTrigrams, h.andFilters, by simp [h.orGroups], by simp [h.orFilters]⟩

theorem addGroups (added : List (List (List UInt8))) :
    (added.foldl addOrGroup query).BuiltFrom required
      (groups ++ (added.map groupFilters).filter (·.keys ≠ [])) := by
  induction added generalizing query groups with
  | nil => simpa using h
  | cons group added ih =>
    have hr := ih (h.addGroup group)
    rwa [append_assoc, ← filter_append] at hr

end

end RegexQuery.BuiltFrom

theorem QueryBuild.intoQuery_builtFrom (build : QueryBuild) :
    build.intoQuery.BuiltFrom (build.andRuns.flatMap trigramFilters)
      ((build.orGroups.map groupFilters).filter (·.keys ≠ [])) := by
  have hd : RegexQuery.default.BuiltFrom [] [] :=
    ⟨nofun, rfl, rfl, rfl⟩
  exact (hd.addRuns build.andRuns).addGroups build.orGroups

end Aft.Search
