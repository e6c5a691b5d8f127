import Egregore.Github.Client
import Egregore.WorktreeDiffSpec
import Mathlib.Data.Nat.Digits.Defs

/-!
# What conditional pagination delivers

A `304` carries no link, so a run looks past the highest stored page only if that page
changed. The invariant `Fetched` says that the stored `ETag`s are those of the pages that the
endpoint had, and `imports_complete_iff` that a run delivers what is new exactly when no page
with items lies past an unchanged highest stored one.
-/

namespace Egregore.Github

open Base

variable {Item : Type}

/-- The items of a page; pages past the end are empty. -/
def pageAt (pages : List (List Item)) (page : Nat) : List Item := (pages[page - 1]?).getD []

/-- The server answers for these pages: `304` exactly for the `ETag` of the page's items, and
otherwise the items with a `next` link exactly when a later page exists. -/
structure Serves (etagOf : List Item → String)
    (get : String → Option String → Except GithubError (ConditionalResponse Item))
    (firstPath : String) (pages : List (List Item)) : Prop where
  numbered : pages.length < u32Values
  unchanged : ∀ page, 1 ≤ page →
    get (pagePath firstPath page) (some (etagOf (pageAt pages page))) = .ok .notModified
  changed : ∀ page prior, 1 ≤ page → prior ≠ some (etagOf (pageAt pages page)) →
    ∃ link, (linkNext link).isSome = decide (page < pages.length) ∧
      get (pagePath firstPath page) prior =
        .ok (.modified (.array (pageAt pages page)) (some (etagOf (pageAt pages page))) link)

/-- The stored `ETag`s are those of the pages up to `known`, past which there are no items. -/
structure Fetched (etagOf : List Item → String) (firstPath : String) (etags : StrMap String)
    (pages : List (List Item)) (known : Nat) : Prop where
  numbered : known < u32Values
  stored : ∀ page, 1 ≤ page → page ≤ known →
    etags[etagKey firstPath page]? = some (etagOf (pageAt pages page))
  highest : ∀ key page, key ∈ etags → pageOfKey firstPath key = some page → page ≤ known
  beyond : ∀ page, known < page → pageAt pages page = []

/-- The items of the pages that `previous` did not have, or had with other items. -/
def newItems [DecidableEq Item] (previous pages : List (List Item)) : List Item :=
  (List.range' 1 pages.length).flatMap fun page =>
    if page ≤ previous.length ∧ pageAt pages page = pageAt previous page then []
    else pageAt pages page

/-- One run: what the endpoint held before, what it holds now, and what came of it. -/
structure ImportRun (Item : Type) where
  get : String → Option String → Except GithubError (ConditionalResponse Item)
  etags : StrMap String
  previous : List (List Item)
  pages : List (List Item)
  outcome : FetchOutcome Item

/-- The run returns, with every item of every page that is new. -/
structure ImportRun.Delivers [DecidableEq Item] (sourceClass firstPath : String)
    (run : ImportRun Item) : Prop where
  returns : ∃ fuel, ∀ more, fuel ≤ more →
    fetchPaginated run.get sourceClass firstPath run.etags more = some (.ok run.outcome)
  items : (newItems run.previous run.pages).Sublist run.outcome.items

/-- No page with items lies past the highest stored one, or that one's items changed. -/
def ImportRun.InReach (firstPath : String) (run : ImportRun Item) : Prop :=
  let known := maxKnown firstPath run.etags
  known = 0 ∨ pageAt run.pages known ≠ pageAt run.previous known ∨
    ∀ page, known < page → pageAt run.pages page = []

/-- Runs one after the other, each with the `ETag`s merged so far. -/
inductive Imports (etagOf : List Item → String) (sourceClass firstPath : String) :
    StrMap String → List (List Item) → List (ImportRun Item) → Prop
  | done {etags : StrMap String} {previous : List (List Item)} :
      Imports etagOf sourceClass firstPath etags previous []
  | run {run : ImportRun Item} {runs : List (ImportRun Item)} (fuel : Nat)
      (serves : Serves etagOf run.get firstPath run.pages)
      (fetched : fetchPaginated run.get sourceClass firstPath run.etags fuel =
        some (.ok run.outcome))
      (rest : Imports etagOf sourceClass firstPath (mergeEtags run.etags run.outcome) run.pages
        runs) :
      Imports etagOf sourceClass firstPath run.etags run.previous (run :: runs)

/-- Every item that the endpoint shows at some run was there at the start, or has been
delivered by then. -/
def NothingLost (start : List (List Item)) (runs : List (ImportRun Item)) : Prop :=
  ∀ earlier run later, runs = earlier ++ run :: later → ∀ item ∈ run.pages.flatten,
    item ∈ start.flatten ∨ ∃ delivery ∈ earlier ++ [run], item ∈ delivery.outcome.items

section Keys

variable {firstPath : String}

/-- A page number that ends a text is read back. -/
theorem parseU32_after (text : String) (page : Nat) :
    (stripPrefix text.toList (text ++ toString page).toList).bind parseU32 =
      if page < u32Values then some page else none := by
  have digits : (toString page).toList = Nat.toDigits 10 page := by
    change (Nat.repr page).toList = _
    simp [Nat.repr]
  rw [String.toList_append, stripPrefix_append, Option.bind_some, digits, parseU32_toDigits]

/-- The key of a page reads back as its number. -/
theorem pageOfKey_etagKey {page : Nat} (numbered : page < u32Values) :
    pageOfKey firstPath (etagKey firstPath page) = some page := by
  rw [pageOfKey, etagKey, parseU32_after, if_pos numbered]

/-- A running maximum is bounded by what bounds every value. -/
private theorem foldl_max_le_iff {bound : Nat} {values : List Nat} {start : Nat} :
    values.foldl max start ≤ bound ↔ start ≤ bound ∧ ∀ value ∈ values, value ≤ bound := by
  induction values generalizing start with
  | nil => simp
  | cons first rest ih =>
      rw [List.foldl_cons, ih, List.forall_mem_cons, Nat.max_le, and_assoc]

/-- The last known page bounds the numbers in the keys. -/
theorem maxKnown_le_iff {etags : StrMap String} {bound : Nat} :
    maxKnown firstPath etags ≤ bound ↔
      ∀ key page, key ∈ etags → pageOfKey firstPath key = some page → page ≤ bound := by
  simp only [maxKnown, foldl_max_le_iff, Nat.zero_le, true_and, List.mem_filterMap,
    Std.ExtTreeMap.mem_keys]
  exact ⟨fun all key page member named => all page ⟨key, member, named⟩,
    fun all page ⟨key, member, named⟩ => all key page member named⟩

end Keys

section Run

variable {etagOf : List Item → String} {firstPath sourceClass : String} {etags : StrMap String}
variable {previous pages : List (List Item)} {known : Nat}
variable {get : String → Option String → Except GithubError (ConditionalResponse Item)}

/-- The highest stored page is the one that the invariant names. -/
theorem Fetched.maxKnown_eq (fetched : Fetched etagOf firstPath etags previous known) :
    maxKnown firstPath etags = known := by
  apply Nat.le_antisymm (maxKnown_le_iff.mpr fetched.highest)
  rcases Nat.eq_zero_or_pos known with rfl | positive
  · exact Nat.zero_le _
  · have present : etagKey firstPath known ∈ etags :=
      Std.ExtTreeMap.mem_iff_isSome_getElem?.mpr
        (by simp [fetched.stored known positive (Nat.le_refl _)])
    exact maxKnown_le_iff.mp (Nat.le_refl _) _ _ present (pageOfKey_etagKey fetched.numbered)

/-- Pages past the known ones have no stored `ETag`. -/
theorem Fetched.unstored (fetched : Fetched etagOf firstPath etags previous known) {page : Nat}
    (numbered : page < u32Values) (past : known < page) : etags[etagKey firstPath page]? = none := by
  by_contra found
  have present : etagKey firstPath page ∈ etags :=
    Std.ExtTreeMap.mem_iff_isSome_getElem?.mpr (Option.isSome_iff_ne_none.mpr found)
  have := fetched.highest _ _ present (pageOfKey_etagKey numbered)
  omega

/-- The first import starts from nothing. -/
theorem fetched_empty : Fetched etagOf firstPath ∅ [] 0 where
  numbered := by decide
  stored page low high := absurd high (by omega)
  highest key page member := absurd member Std.ExtTreeMap.not_mem_empty
  beyond page _ := by simp [pageAt]

variable [DecidableEq Item]

/-- The page is one that the run knows and finds unchanged. -/
def Unchanged (previous pages : List (List Item)) (known page : Nat) : Prop :=
  page ≤ known ∧ pageAt pages page = pageAt previous page

instance (page : Nat) : Decidable (Unchanged previous pages known page) :=
  inferInstanceAs (Decidable (_ ∧ _))

/-- What visiting a page does. -/
def visited (etagOf : List Item → String) (firstPath : String) (previous pages : List (List Item))
    (known page : Nat) (state : FetchState Item) : FetchState Item where
  items := state.items ++
    if Unchanged previous pages known page then [] else pageAt pages page
  etags := state.etags.insert (etagKey firstPath page) (etagOf (pageAt pages page))
  anyModified := state.anyModified || !decide (Unchanged previous pages known page)

/-- Whether a run goes on after a page. -/
def goesOn (previous pages : List (List Item)) (known page : Nat) : Bool :=
  decide (page < known) ||
    (!decide (Unchanged previous pages known page) && decide (page < pages.length))

/-- A page is unchanged when its ETag is: the server sends a 304 then, and the page otherwise. -/
theorem fetchPage_eq (injective : Function.Injective etagOf)
    (fetched : Fetched etagOf firstPath etags previous known)
    (serves : Serves etagOf get firstPath pages) {page : Nat} (positive : 1 ≤ page)
    (numbered : page < u32Values) (state : FetchState Item) :
    fetchPage get sourceClass firstPath etags page state =
      .ok (visited etagOf firstPath previous pages known page state,
        goesOn previous pages known page) := by
  by_cases same : Unchanged previous pages known page
  · have prior := fetched.stored page positive same.1
    rw [← same.2] at prior
    simp [fetchPage, prior, serves.unchanged page positive, fetched.maxKnown_eq, visited, goesOn,
      same, bind, Except.bind, pure, Except.pure]
  · have prior : etags[etagKey firstPath page]? ≠ some (etagOf (pageAt pages page)) := by
      intro found
      rcases Nat.lt_or_ge known page with past | within
      · simp [fetched.unstored numbered past] at found
      · rw [fetched.stored page positive within, Option.some.injEq] at found
        exact same ⟨within, (injective found).symm⟩
    obtain ⟨link, next, answer⟩ := serves.changed page _ positive prior
    simp [fetchPage, answer, fetched.maxKnown_eq, visited, goesOn, same, next, bind, Except.bind,
      pure, Except.pure]

/-- The last page that a run visits. -/
def lastPage (previous pages : List (List Item)) (known : Nat) : Nat :=
  if known = 0 ∨ pageAt pages known ≠ pageAt previous known then
    max (max known 1) pages.length
  else known

/-- The first page is always fetched. -/
theorem lastPage_pos : 1 ≤ lastPage previous pages known := by
  rw [lastPage]
  split <;> omega

/-- So are the pages known from before. -/
theorem known_le_lastPage : known ≤ lastPage previous pages known := by
  rw [lastPage]
  split <;> omega

/-- The numbers of the fetched pages fit 32 bits. -/
theorem lastPage_numbered (numbered : known < u32Values) (fits : pages.length < u32Values) :
    lastPage previous pages known < u32Values := by
  rw [lastPage]
  have : 1 < u32Values := by decide
  split <;> omega

/-- The fetch goes on behind a known page, or behind a changed one with a next link. -/
theorem goesOn_iff {page : Nat} :
    goesOn previous pages known page = true ↔
      page < known ∨ ¬ Unchanged previous pages known page ∧ page < pages.length := by
  simp [goesOn]

/-- Every page before the last leads on. -/
theorem goesOn_of_lt_lastPage {page : Nat} (positive : 1 ≤ page)
    (before : page < lastPage previous pages known) : goesOn previous pages known page = true := by
  rw [lastPage] at before
  rw [goesOn_iff]
  split at before
  · next moves =>
      rcases Nat.lt_trichotomy page known with less | rfl | more
      · exact Or.inl less
      · have changed : pageAt pages page ≠ pageAt previous page := by
          rcases moves with zero | changed
          · omega
          · exact changed
        exact Or.inr ⟨fun same => changed same.2, by omega⟩
      · exact Or.inr ⟨fun same => absurd same.1 (by omega), by omega⟩
  · exact Or.inl before

/-- It stops at the last page. -/
theorem goesOn_lastPage : goesOn previous pages known (lastPage previous pages known) = false := by
  rw [← Bool.not_eq_true, goesOn_iff, lastPage]
  split
  · omega
  · next stays =>
      rw [not_or, not_not] at stays
      rintro (less | ⟨changed, -⟩)
      · exact Nat.lt_irrefl _ less
      · exact changed ⟨Nat.le_refl _, stays.2⟩

/-- The state after the pages up to the last. -/
def walked (etagOf : List Item → String) (firstPath : String) (previous pages : List (List Item))
    (known : Nat) : FetchState Item :=
  (List.range' 1 (lastPage previous pages known)).foldl
    (fun state page => visited etagOf firstPath previous pages known page state) {}

/-- What a run returns. -/
def runOutcome (etagOf : List Item → String) (firstPath : String) (previous pages : List (List Item))
    (known : Nat) : FetchOutcome Item :=
  let state := walked etagOf firstPath previous pages known
  if state.anyModified then .modified state.items state.etags else .notModified

/-- With enough fuel the fetch walks up to the last page, and nothing else ends it. -/
theorem fetchPaginated_eq (injective : Function.Injective etagOf)
    (fetched : Fetched etagOf firstPath etags previous known)
    (serves : Serves etagOf get firstPath pages) (fuel : Nat) :
    fetchPaginated get sourceClass firstPath etags fuel =
      if lastPage previous pages known ≤ fuel then
        some (.ok (runOutcome etagOf firstPath previous pages known))
      else none := by
  have positive : 1 ≤ lastPage previous pages known := lastPage_pos
  have numbered : lastPage previous pages known < u32Values :=
    lastPage_numbered fetched.numbered serves.numbered
  have visits : ∀ page, 1 ≤ page → page ≤ lastPage previous pages known → ∀ state,
      fetchPage get sourceClass firstPath etags page state =
        .ok (visited etagOf firstPath previous pages known page state,
          goesOn previous pages known page) := fun page low high state =>
    fetchPage_eq injective fetched serves low (by omega) state
  rw [fetchPaginated, walkPages_eq positive visits (fun page => goesOn_of_lt_lastPage)
    goesOn_lastPage]
  have enough : lastPage previous pages known < 1 + fuel ↔
      lastPage previous pages known ≤ fuel := by omega
  simp only [enough, Nat.add_sub_cancel]
  split <;> rfl

/-- The items of the visited pages that are not known unchanged. -/
theorem walked_items :
    (walked etagOf firstPath previous pages known).items =
      (List.range' 1 (lastPage previous pages known)).flatMap fun page =>
        if Unchanged previous pages known page then [] else pageAt pages page := by
  have general : ∀ (visits : List Nat) (state : FetchState Item),
      (visits.foldl (fun state page => visited etagOf firstPath previous pages known page state)
        state).items = state.items ++ visits.flatMap fun page =>
          if Unchanged previous pages known page then [] else pageAt pages page := by
    intro visits
    induction visits with
    | nil => simp
    | cons first rest ih =>
        intro state
        rw [List.foldl_cons, ih, List.flatMap_cons, visited, List.append_assoc]
  rw [walked, general]
  rfl

/-- The fetch reports a change when it saw a page that changed. -/
theorem walked_anyModified :
    (walked etagOf firstPath previous pages known).anyModified = true ↔
      ∃ page, 1 ≤ page ∧ page ≤ lastPage previous pages known ∧
        ¬ Unchanged previous pages known page := by
  have general : ∀ (visits : List Nat) (state : FetchState Item),
      (visits.foldl (fun state page => visited etagOf firstPath previous pages known page state)
        state).anyModified = true ↔ state.anyModified = true ∨
          ∃ page ∈ visits, ¬ Unchanged previous pages known page := by
    intro visits
    induction visits with
    | nil => simp
    | cons first rest ih =>
        intro state
        rw [List.foldl_cons, ih]
        simp [visited, or_assoc]
  rw [walked, general]
  simp only [Bool.false_eq_true, false_or, List.mem_range'_1, and_assoc]
  exact exists_congr fun page => and_congr_right fun _ => and_congr_left fun _ => by omega

/-- It leaves the present ETag of every fetched page. -/
theorem getElem?_walked_etags (numbered : lastPage previous pages known < u32Values) (key : String) :
    (walked etagOf firstPath previous pages known).etags[key]? =
      if key ∈ (List.range' 1 (lastPage previous pages known)).map (etagKey firstPath) then
        some (etagOf (pageAt pages ((pageOfKey firstPath key).getD 0)))
      else none := by
  have general : ∀ (visits : List Nat) (state : FetchState Item),
      (∀ page ∈ visits, page < u32Values) →
      (visits.foldl (fun state page => visited etagOf firstPath previous pages known page state)
        state).etags = (visits.map (etagKey firstPath)).foldl (fun map key =>
          map.insert key (etagOf (pageAt pages ((pageOfKey firstPath key).getD 0)))) state.etags := by
    intro visits
    induction visits with
    | nil => simp
    | cons first rest ih =>
        intro state below
        rw [List.foldl_cons, ih _ fun page member => below page (List.mem_cons_of_mem _ member),
          List.map_cons, List.foldl_cons, pageOfKey_etagKey (below first (by simp))]
        rfl
  rw [walked, general _ _ fun page member => by
    rw [List.mem_range'_1] at member
    omega]
  rw [getElem?_foldl_insert_value]
  rfl

/-- The items that a run delivers are those of the pages that differ. -/
theorem items_runOutcome :
    (runOutcome etagOf firstPath previous pages known).items =
      (List.range' 1 (lastPage previous pages known)).flatMap fun page =>
        if Unchanged previous pages known page then [] else pageAt pages page := by
  have all : (walked etagOf firstPath previous pages known).items = _ := walked_items
  rw [← all, runOutcome]
  cases modified : (walked etagOf firstPath previous pages known).anyModified with
  | true => simp [FetchOutcome.items]
  | false =>
      have unmodified := mt walked_anyModified.mpr (Bool.eq_false_iff.mp modified)
      rw [walked_items]
      simp only [Bool.false_eq_true, if_false, FetchOutcome.items]
      symm
      rw [List.flatMap_eq_nil_iff]
      intro page member
      rw [List.mem_range'_1] at member
      have same : Unchanged previous pages known page := by
        by_contra changed
        exact unmodified ⟨page, member.1, by omega, changed⟩
      rw [if_pos same]

/-- A page's part of the new items, whichever pages there were before. -/
theorem contribution (beyond : ∀ page, known < page → pageAt previous page = []) (page : Nat) :
    (if Unchanged previous pages known page then [] else pageAt pages page) =
      if pageAt pages page = pageAt previous page then [] else pageAt pages page := by
  by_cases same : pageAt pages page = pageAt previous page
  · rcases Nat.lt_or_ge known page with past | within
    · simp [same, beyond page past]
    · simp [Unchanged, same, within]
  · simp [Unchanged, same]

omit [DecidableEq Item] in
/-- Behind the pages there are no items. -/
theorem pageAt_of_length_lt {page : Nat} (past : pages.length < page) : pageAt pages page = [] := by
  rw [pageAt, List.getElem?_eq_none (by omega)]
  rfl

/-- The items of the pages that changed are the new ones. -/
theorem newItems_eq :
    newItems previous pages = (List.range' 1 pages.length).flatMap fun page =>
      if pageAt pages page = pageAt previous page then [] else pageAt pages page := by
  rw [newItems]
  congr 1
  funext page
  by_cases same : pageAt pages page = pageAt previous page
  · rcases Nat.lt_or_ge previous.length page with past | within
    · simp [same, pageAt_of_length_lt past]
    · simp [same, within]
  · simp [same]

/-- What a run does not reach past the last page it visits. -/
def missed (previous pages : List (List Item)) (known : Nat) : List Item :=
  (List.range' (1 + lastPage previous pages known)
    (pages.length - lastPage previous pages known)).flatMap fun page =>
      if pageAt pages page = pageAt previous page then [] else pageAt pages page

/-- The new items are those that a run delivers, then those that it misses. -/
theorem newItems_eq_append (beyond : ∀ page, known < page → pageAt previous page = []) :
    newItems previous pages =
      (runOutcome etagOf firstPath previous pages known).items ++ missed previous pages known := by
  rw [newItems_eq, items_runOutcome]
  simp only [contribution beyond]
  rw [missed]
  rcases Nat.le_total (lastPage previous pages known) pages.length with short | long
  · have split : List.range' 1 pages.length =
        List.range' 1 (lastPage previous pages known) ++
          List.range' (1 + lastPage previous pages known)
            (pages.length - lastPage previous pages known) := by
      rw [List.range'_append_1]
      congr 1
      omega
    rw [split, List.flatMap_append]
  · have none_ : pages.length - lastPage previous pages known = 0 := by omega
    have split : List.range' 1 (lastPage previous pages known) =
        List.range' 1 pages.length ++
          List.range' (1 + pages.length) (lastPage previous pages known - pages.length) := by
      rw [List.range'_append_1]
      congr 1
      omega
    have empty : (List.range' (1 + pages.length)
        (lastPage previous pages known - pages.length)).flatMap (fun page =>
          if pageAt pages page = pageAt previous page then [] else pageAt pages page) = [] := by
      rw [List.flatMap_eq_nil_iff]
      intro page member
      rw [List.mem_range'_1] at member
      rw [pageAt_of_length_lt (by omega), ite_self]
    rw [none_, split, List.flatMap_append, empty]
    simp

/-- A run misses nothing exactly when it moves past the known pages or nothing is there. -/
theorem missed_eq_nil_iff (beyond : ∀ page, known < page → pageAt previous page = []) :
    missed previous pages known = [] ↔
      known = 0 ∨ pageAt pages known ≠ pageAt previous known ∨
        ∀ page, known < page → pageAt pages page = [] := by
  rw [missed, List.flatMap_eq_nil_iff]
  constructor
  · intro nothing
    by_cases moves : known = 0 ∨ pageAt pages known ≠ pageAt previous known
    · exact moves.imp_right Or.inl
    · refine Or.inr (Or.inr fun page past => ?_)
      rw [lastPage, if_neg moves] at nothing
      rcases Nat.lt_or_ge pages.length page with outside | inside
      · exact pageAt_of_length_lt outside
      · have contributes := nothing page (by rw [List.mem_range'_1]; omega)
        rw [beyond page past] at contributes
        by_contra items
        rw [if_neg items] at contributes
        exact items contributes
  · intro reaches page member
    rw [List.mem_range'_1] at member
    have past : known < page := by
      have reached : known ≤ lastPage previous pages known := known_le_lastPage
      omega
    by_cases moves : known = 0 ∨ pageAt pages known ≠ pageAt previous known
    · rw [lastPage, if_pos moves] at member
      omega
    · rcases or_assoc.mpr reaches with moves' | nothing
      · exact absurd moves' moves
      · rw [nothing page past, ite_self]

/-- After a run the visited pages have the `ETag`s of what they hold now. -/
theorem getElem?_mergeEtags (fetched : Fetched etagOf firstPath etags previous known)
    (numbered : pages.length < u32Values) (key : String) :
    (mergeEtags etags (runOutcome etagOf firstPath previous pages known))[key]? =
      if key ∈ (List.range' 1 (lastPage previous pages known)).map (etagKey firstPath) then
        some (etagOf (pageAt pages ((pageOfKey firstPath key).getD 0)))
      else etags[key]? := by
  have within : lastPage previous pages known < u32Values :=
    lastPage_numbered fetched.numbered numbered
  rw [runOutcome]
  cases modified : (walked etagOf firstPath previous pages known).anyModified with
  | true =>
      simp only [if_true, mergeEtags, Std.ExtTreeMap.getElem?_union, getElem?_walked_etags within]
      split <;> simp
  | false =>
      simp only [Bool.false_eq_true, if_false, mergeEtags]
      split
      · next visits =>
          rw [List.mem_map] at visits
          obtain ⟨page, member, rfl⟩ := visits
          rw [List.mem_range'_1] at member
          have same : Unchanged previous pages known page := by
            by_contra changed
            refine Bool.eq_false_iff.mp modified (walked_anyModified.mpr ⟨page, member.1, ?_, changed⟩)
            omega
          rw [fetched.stored page member.1 same.1, pageOfKey_etagKey (by omega), Option.getD_some,
            same.2]
      · rfl

/-- The stored `ETag`s after a run that misses nothing. -/
theorem fetched_merge (fetched : Fetched etagOf firstPath etags previous known)
    (numbered : pages.length < u32Values)
    (nothing : missed previous pages known = []) :
    Fetched etagOf firstPath
      (mergeEtags etags (runOutcome etagOf firstPath previous pages known)) pages
      (lastPage previous pages known) where
  numbered := lastPage_numbered fetched.numbered numbered
  stored page positive within := by
    have below : lastPage previous pages known < u32Values :=
      lastPage_numbered fetched.numbered numbered
    have visits : etagKey firstPath page ∈
        (List.range' 1 (lastPage previous pages known)).map (etagKey firstPath) :=
      List.mem_map_of_mem (List.mem_range'_1.mpr (by omega))
    rw [getElem?_mergeEtags fetched numbered, if_pos visits, pageOfKey_etagKey (by omega),
      Option.getD_some]
  highest key page member named := by
    have below : lastPage previous pages known < u32Values :=
      lastPage_numbered fetched.numbered numbered
    rw [Std.ExtTreeMap.mem_iff_isSome_getElem?, getElem?_mergeEtags fetched numbered] at member
    split at member
    · next visits =>
        rw [List.mem_map] at visits
        obtain ⟨visit, inside, rfl⟩ := visits
        rw [List.mem_range'_1] at inside
        rw [pageOfKey_etagKey (by omega), Option.some.injEq] at named
        omega
    · have old := fetched.highest key page (Std.ExtTreeMap.mem_iff_isSome_getElem?.mpr member) named
      exact Nat.le_trans old known_le_lastPage
  beyond page past := by
    rcases Nat.lt_or_ge pages.length page with outside | inside
    · exact pageAt_of_length_lt outside
    · have known_lt : known < page := Nat.lt_of_le_of_lt known_le_lastPage past
      rw [missed, List.flatMap_eq_nil_iff] at nothing
      have contributes := nothing page (by rw [List.mem_range'_1]; omega)
      rw [fetched.beyond page known_lt] at contributes
      by_contra items
      rw [if_neg items] at contributes
      exact items contributes

end Run

section Runs

variable {etagOf : List Item → String} {firstPath sourceClass : String} [DecidableEq Item]

/-- A run delivers what is new exactly when it is in reach of the stored pages. -/
theorem ImportRun.delivers_iff {run : ImportRun Item} {known fuel : Nat}
    (injective : Function.Injective etagOf)
    (fetched : Fetched etagOf firstPath run.etags run.previous known)
    (serves : Serves etagOf run.get firstPath run.pages)
    (returned : fetchPaginated run.get sourceClass firstPath run.etags fuel =
      some (.ok run.outcome)) :
    (run.Delivers sourceClass firstPath ↔ run.InReach firstPath) ∧
      run.outcome = runOutcome etagOf firstPath run.previous run.pages known := by
  have result : ∀ fuel, fetchPaginated run.get sourceClass firstPath run.etags fuel = _ :=
    fetchPaginated_eq injective fetched serves
  have outcome : run.outcome = runOutcome etagOf firstPath run.previous run.pages known := by
    rw [result] at returned
    split at returned
    · exact (Except.ok.inj (Option.some.inj returned)).symm
    · cases returned
  refine ⟨?_, outcome⟩
  have returns : ∃ fuel, ∀ more, fuel ≤ more →
      fetchPaginated run.get sourceClass firstPath run.etags more = some (.ok run.outcome) :=
    ⟨lastPage run.previous run.pages known, fun more enough => by
      rw [result, if_pos enough, outcome]⟩
  have split : newItems run.previous run.pages =
      run.outcome.items ++ missed run.previous run.pages known := by
    rw [outcome]
    exact newItems_eq_append fetched.beyond
  rw [InReach, fetched.maxKnown_eq, ← missed_eq_nil_iff fetched.beyond]
  constructor
  · intro delivers
    have shorter := delivers.items.length_le
    rw [split, List.length_append] at shorter
    exact List.eq_nil_of_length_eq_zero (by omega)
  · intro nothing
    refine ⟨returns, ?_⟩
    rw [split, nothing, List.append_nil]

omit [DecidableEq Item] in
/-- An item is on one of the pages. -/
theorem mem_flatten_iff {pages : List (List Item)} {item : Item} :
    item ∈ pages.flatten ↔ ∃ page, 1 ≤ page ∧ item ∈ pageAt pages page := by
  rw [List.mem_flatten]
  constructor
  · rintro ⟨items, member, inside⟩
    obtain ⟨index, found⟩ := List.mem_iff_getElem?.mp member
    exact ⟨index + 1, by omega, by simpa [pageAt, found] using inside⟩
  · rintro ⟨page, -, inside⟩
    rw [pageAt] at inside
    cases found : pages[page - 1]? with
    | none => simp [found] at inside
    | some items =>
        rw [found] at inside
        exact ⟨items, List.mem_of_getElem? found, inside⟩

/-- What a page holds was there before or is delivered. -/
theorem ImportRun.Delivers.mem_items {run : ImportRun Item}
    (delivers : run.Delivers sourceClass firstPath) {item : Item}
    (shown : item ∈ run.pages.flatten) :
    item ∈ run.previous.flatten ∨ item ∈ run.outcome.items := by
  obtain ⟨page, positive, inside⟩ := mem_flatten_iff.mp shown
  by_cases same : pageAt run.pages page = pageAt run.previous page
  · exact Or.inl (mem_flatten_iff.mpr ⟨page, positive, same ▸ inside⟩)
  · refine Or.inr (delivers.items.mem ?_)
    rw [newItems_eq, List.mem_flatMap]
    have within : page ≤ run.pages.length := by
      by_contra outside
      rw [pageAt_of_length_lt (by omega)] at inside
      cases inside
    exact ⟨page, List.mem_range'_1.mpr (by omega), by rwa [if_neg same]⟩

/-- Runs that each deliver what is new lose nothing. -/
theorem nothingLost_of_delivers {etags : StrMap String} {start : List (List Item)}
    {runs : List (ImportRun Item)} (imports : Imports etagOf sourceClass firstPath etags start runs)
    (delivers : ∀ run ∈ runs, run.Delivers sourceClass firstPath) : NothingLost start runs := by
  induction imports with
  | done =>
      intro earlier run later split
      simp at split
  | @run first runs fuel serves returned rest ih =>
      rw [List.forall_mem_cons] at delivers
      intro earlier run later split item shown
      cases earlier with
      | nil =>
          obtain ⟨rfl, rfl⟩ := List.cons.inj split
          exact (delivers.1.mem_items shown).imp_right fun inside => ⟨first, by simp, inside⟩
      | cons head earlier =>
          obtain ⟨rfl, tail⟩ := List.cons.inj split
          rcases ih delivers.2 earlier run later tail item shown with
            before | ⟨delivery, member, inside⟩
          · exact (delivers.1.mem_items before).imp_right fun inside => ⟨first, by simp, inside⟩
          · exact Or.inr ⟨delivery, List.mem_cons_of_mem _ member, inside⟩

/-- Every run of a sequence delivers what is new, and nothing is lost, exactly when in each no
page with items lies past an unchanged highest stored page. -/
theorem imports_complete_iff {etags : StrMap String} {start : List (List Item)} {known : Nat}
    {runs : List (ImportRun Item)} (injective : Function.Injective etagOf)
    (fetched : Fetched etagOf firstPath etags start known)
    (imports : Imports etagOf sourceClass firstPath etags start runs) :
    ((∀ run ∈ runs, run.Delivers sourceClass firstPath) ∧ NothingLost start runs) ↔
      ∀ run ∈ runs, run.InReach firstPath := by
  rw [and_iff_left_of_imp (nothingLost_of_delivers imports)]
  induction imports generalizing known with
  | done => simp
  | @run first runs fuel serves returned rest ih =>
      obtain ⟨delivers, outcome⟩ := ImportRun.delivers_iff injective fetched serves returned
      rw [List.forall_mem_cons, List.forall_mem_cons, delivers]
      refine and_congr_right fun reaches => ?_
      rw [ImportRun.InReach, fetched.maxKnown_eq] at reaches
      have nothing := (missed_eq_nil_iff fetched.beyond).mpr reaches
      exact ih (outcome ▸ fetched_merge fetched serves.numbered nothing)

end Runs

section Server

variable (etagOf : List Item → String) (firstPath : String) (pages : List (List Item))

/-- What every page's path starts with. -/
def pagePrefix : String :=
  firstPath ++ (if firstPath.toList.contains '?' then "&" else "?") ++ "page="

/-- What a path of the endpoint stands for. -/
def itemsAt (path : String) : List Item :=
  ((stripPrefix (pagePrefix firstPath).toList path.toList).bind parseU32).elim [] (pageAt pages)

/-- Whether a path stands for a page that another follows. -/
def followed (path : String) : Bool :=
  ((stripPrefix (pagePrefix firstPath).toList path.toList).bind parseU32).any (· < pages.length)

/-- An endpoint that shows these pages. -/
def endpoint (path : String) (prior : Option String) :
    Except GithubError (ConditionalResponse Item) :=
  let items := itemsAt firstPath pages path
  if prior = some (etagOf items) then .ok .notModified
  else .ok (.modified (.array items) (some (etagOf items))
    (if followed firstPath pages path then some "<next>; rel=\"next\"" else none))

variable {etagOf firstPath pages}

/-- The server finds the page of a path. -/
theorem itemsAt_pagePath (numbered : pages.length < u32Values) (page : Nat) :
    itemsAt firstPath pages (pagePath firstPath page) = pageAt pages page := by
  have split : pagePath firstPath page = pagePrefix firstPath ++ toString page := rfl
  rw [itemsAt, split, parseU32_after]
  split
  · rfl
  · rw [pageAt_of_length_lt (by omega)]
    rfl

/-- It links the next one unless the page is the last. -/
theorem followed_pagePath (numbered : pages.length < u32Values) (page : Nat) :
    followed firstPath pages (pagePath firstPath page) = decide (page < pages.length) := by
  have split : pagePath firstPath page = pagePrefix firstPath ++ toString page := rfl
  rw [followed, split, parseU32_after]
  split
  · rfl
  · have past : ¬ page < pages.length := by omega
    simp [past]

/-- The server of the pages serves them. -/
theorem serves_endpoint (numbered : pages.length < u32Values) :
    Serves etagOf (endpoint etagOf firstPath pages) firstPath pages where
  numbered := numbered
  unchanged page _ := by rw [endpoint, itemsAt_pagePath numbered, if_pos rfl]
  changed page prior _ differs := by
    refine ⟨_, ?_, by rw [endpoint, itemsAt_pagePath numbered, if_neg differs]⟩
    rw [followed_pagePath numbered]
    split
    · next next =>
        rw [next]
        decide
    · next last =>
        rw [Bool.not_eq_true] at last
        rw [last]
        rfl

end Server

section Comments

/-- The comments of a repository that has exactly one page of them. -/
def firstComments : List Char := (List.range 100).map Char.ofNat

/-- The path of the comments. -/
def commentsPath : String := "/repos/owner/name/issues/comments?per_page=100"

/-- The first import, of the one page. -/
def firstImport : ImportRun Char where
  get := endpoint String.ofList commentsPath [firstComments]
  etags := ∅
  previous := []
  pages := [firstComments]
  outcome := runOutcome String.ofList commentsPath [] [firstComments] 0

/-- The import after one more comment. -/
def secondImport : ImportRun Char where
  get := endpoint String.ofList commentsPath [firstComments, ['z']]
  etags := mergeEtags ∅ firstImport.outcome
  previous := [firstComments]
  pages := [firstComments, ['z']]
  outcome := .notModified

/-- The first import ends at its only page. -/
theorem lastPage_first : lastPage [] [firstComments] 0 = 1 := rfl

/-- So does the second one, where the page did not change. -/
theorem lastPage_second : lastPage [firstComments] [firstComments, ['z']] 1 = 1 := by
  have stays : ¬ (1 = 0 ∨ pageAt [firstComments, ['z']] 1 ≠ pageAt [firstComments] 1) := by
    simp [pageAt]
  rw [lastPage, if_neg stays]

/-- The first import leaves the ETags that the second one starts with. -/
theorem fetched_first :
    Fetched String.ofList commentsPath secondImport.etags [firstComments] 1 := by
  have nothing : missed [] [firstComments] 0 = [] := by
    simp [missed, lastPage_first]
  exact lastPage_first ▸ fetched_merge fetched_empty (by decide) nothing

/-- The second import finds its only known page unchanged. -/
theorem runOutcome_second :
    runOutcome String.ofList commentsPath [firstComments] [firstComments, ['z']] 1 =
      secondImport.outcome := by
  have same : Unchanged [firstComments] [firstComments, ['z']] 1 1 := by simp [Unchanged, pageAt]
  simp [runOutcome, walked, lastPage_second, visited, same, secondImport]

/-- The first import finds the two comments. -/
theorem fetchPaginated_first :
    fetchPaginated firstImport.get "issue_comments" commentsPath firstImport.etags 1 =
      some (.ok firstImport.outcome) := by
  have serves : Serves String.ofList firstImport.get commentsPath [firstComments] :=
    serves_endpoint (by decide)
  have enough : lastPage [] [firstComments] 0 ≤ 1 := Nat.le_of_eq lastPage_first
  have empty : Fetched String.ofList commentsPath firstImport.etags [] 0 := fetched_empty
  rw [fetchPaginated_eq (fun _ _ => String.ofList_injective) empty serves, if_pos enough]
  rfl

/-- The second import finds nothing. -/
theorem fetchPaginated_second :
    fetchPaginated secondImport.get "issue_comments" commentsPath secondImport.etags 1 =
      some (.ok secondImport.outcome) := by
  have serves : Serves String.ofList secondImport.get commentsPath secondImport.pages :=
    serves_endpoint (by decide)
  have enough : lastPage [firstComments] secondImport.pages 1 ≤ 1 := Nat.le_of_eq lastPage_second
  rw [fetchPaginated_eq (fun _ _ => String.ofList_injective) fetched_first serves, if_pos enough]
  exact congrArg (fun outcome => some (Except.ok outcome)) runOutcome_second

/-- Together they are a sequence of imports. -/
theorem comments_imports :
    Imports String.ofList "issue_comments" commentsPath ∅ [] [firstImport, secondImport] :=
  .run 1 (serves_endpoint (by decide)) fetchPaginated_first
    (.run 1 (serves_endpoint (by decide)) fetchPaginated_second .done)

/-- The equivalence at these imports. -/
theorem comments_complete_iff :
    ((∀ run ∈ [firstImport, secondImport], run.Delivers "issue_comments" commentsPath) ∧
        NothingLost [] [firstImport, secondImport]) ↔
      ∀ run ∈ [firstImport, secondImport], run.InReach commentsPath :=
  imports_complete_iff (fun _ _ => String.ofList_injective) fetched_empty comments_imports

/-- A full page of comments and one comment more: the new page is never fetched. -/
theorem appendedComment_lost :
    Imports String.ofList "issue_comments" commentsPath ∅ [] [firstImport, secondImport] ∧
      ¬ secondImport.Delivers "issue_comments" commentsPath ∧
      ¬ NothingLost [] [firstImport, secondImport] := by
  have fresh : 'z' ∉ firstComments := by decide
  refine ⟨comments_imports, fun delivers => ?_, fun nothing => ?_⟩
  · have new : 'z' ∈ newItems [firstComments] secondImport.pages := by
      simp [newItems, secondImport, pageAt, List.range']
    exact List.not_mem_nil (delivers.items.mem new)
  · have shown : 'z' ∈ secondImport.pages.flatten := by simp [secondImport]
    rcases nothing [firstImport] secondImport [] rfl 'z' shown with before | ⟨delivery, member, item⟩
    · cases before
    · have delivered : firstImport.outcome.items = firstComments := by
        change (runOutcome String.ofList commentsPath [] [firstComments] 0).items = _
        simp [items_runOutcome, lastPage_first, Unchanged, pageAt]
      rw [List.mem_append, List.mem_singleton, List.mem_singleton] at member
      rcases member with rfl | rfl
      · exact fresh (delivered ▸ item)
      · cases item

end Comments

end Egregore.Github
