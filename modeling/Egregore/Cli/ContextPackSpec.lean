import Egregore.Cli.ContextPackRows
import Mathlib.Data.Nat.Find
import Mathlib.Order.Bounds.Basic

/-!
# Budgets of context packs

What a pack keeps for any answer, envelope and budget, and exactly when the reported floor is the
least budget that succeeds: when the shortest pack is as much shorter than that of the best row as
the budget has fewer digits than the floor. The budget is printed inside of what it bounds, so a
change of the budget changes the size; `packLaw_iff` counts that exactly.
-/

namespace Egregore

open Base

/-! ## Figures -/

section Figures

/-- The last item follows a comma. -/
theorem commaSeparated_concat {items : List (List Char)} (some : items ≠ []) (last : List Char) :
    commaSeparated (items ++ [last]) = commaSeparated items ++ ',' :: last := by
  obtain ⟨item, items, rfl⟩ := List.exists_cons_of_ne_nil some
  simp [commaSeparated]

namespace PackResponse

variable (response : PackResponse)

/-- The text up to the budget's figure. -/
def beforeFigures : List Char :=
  '\x7b' :: commaSeparated (response.leading.map memberText) ++ ',' :: quote "budget" ++ ':' ::
    '\x7b' :: memberText ("mode", quote response.budget.budget.modeStr) ++
      ',' :: quote "budget" ++ [':']

/-- The text between the figures. -/
def betweenFigures : List Char := ',' :: quote "measured" ++ [':']

/-- The text after the measured figure. -/
def afterFigures : List Char :=
  ((response.budget.members.drop 3).map memberText).flatMap (',' :: ·) ++ ['\x7d', '\x7d']

/-- The text without its two figures. -/
def blankText : List Char :=
  response.beforeFigures ++ betweenFigures ++ response.afterFigures

/-- The text of an answer is split at its two figures. -/
theorem text_eq : response.text =
    response.beforeFigures ++ numberText response.budget.budget.limit ++ betweenFigures ++
      numberText response.budget.measured ++ response.afterFigures := by
  have some : response.leading.map memberText ≠ [] := by
    simp [leading]
  rw [text, objectText, List.map_append, List.map_cons, List.map_nil, commaSeparated_concat some]
  simp [beforeFigures, betweenFigures, afterFigures, objectText, memberText, commaSeparated,
    PackBudgetReport.members]

/-- A colon stands before the first figure. -/
theorem getLast?_beforeFigures : response.beforeFigures.getLast? = some ':' := by
  rw [beforeFigures, List.getLast?_append_of_ne_nil _ (List.cons_ne_nil _ _)]
  rfl

/-- A comma stands after the second one. -/
theorem head?_afterFigures : response.afterFigures.head? = some ',' := rfl

end PackResponse

namespace PackBudget

/-- What a figure adds to the size. -/
def width : PackBudget → Nat → Nat
  | tokens _, _ => 1
  | bytes _, figure => decimalWidth figure

/-- Either budget measures its figures by a width. -/
theorem figureWidth (budget : PackBudget) : FigureWidth budget.width := by
  cases budget with
  | tokens limit => exact figureWidth_one
  | bytes limit => exact figureWidth_decimal

/-- The same mode with another limit. -/
def withLimit (limit : Nat) : PackBudget → PackBudget
  | tokens _ => tokens limit
  | bytes _ => bytes limit

variable (budget : PackBudget)

/-- Changing the limit changes it. -/
@[simp] theorem limit_withLimit (limit : Nat) : (budget.withLimit limit).limit = limit := by
  cases budget <;> rfl

/-- The measure of a number does not depend on the limit. -/
@[simp] theorem width_withLimit (limit : Nat) : (budget.withLimit limit).width = budget.width := by
  cases budget <;> rfl

/-- Texts between which no word goes on are measured apart. -/
theorem measure_append {before after : List Char} (apart : Apart before after) :
    budget.measure (before ++ after) = budget.measure before + budget.measure after := by
  cases budget with
  | tokens limit => exact countTokens_append apart
  | bytes limit => exact byteLength_append before after

/-- A number has its own measure. -/
theorem measure_numberText (value : Nat) :
    budget.measure (numberText value) = budget.width value := by
  have digits : ∀ char ∈ numberText value, char.isDigit = true := fun char member =>
    Nat.isDigit_of_mem_toDigits (by decide) (by decide) member
  cases budget with
  | tokens limit =>
      apply countTokens_word (List.ne_nil_of_length_pos Nat.length_toDigits_pos)
      intro char member
      simp [isWordChar, Char.isAlphanum, digits char member]
  | bytes limit =>
      apply byteLength_of_ascii
      intro char member
      have digit := digits char member
      simp only [Char.isDigit, Bool.and_eq_true, decide_eq_true_eq, UInt32.le_iff_toNat_le] at digit
      have nine : char.toNat ≤ 57 := digit.2
      omega

/-- The figures add their widths. -/
theorem measure_text (response : PackResponse) : budget.measure response.text =
    budget.measure response.blankText + budget.width response.budget.budget.limit +
      budget.width response.budget.measured := by
  have colon : isWordChar ':' = false := by decide
  have comma : isWordChar ',' = false := by decide
  have ends : ∀ char ∈ response.beforeFigures.getLast?, isWordChar char = false := by
    rw [response.getLast?_beforeFigures]
    rintro _ ⟨⟩
    exact colon
  have starts : ∀ char ∈ response.afterFigures.head?, isWordChar char = false := by
    rw [response.head?_afterFigures]
    rintro _ ⟨⟩
    exact comma
  have starts' : ∀ char ∈ PackResponse.betweenFigures.head?, isWordChar char = false := by
    rintro _ ⟨⟩
    exact comma
  have ends' : ∀ before : List Char,
      ∀ char ∈ (before ++ PackResponse.betweenFigures).getLast?, isWordChar char = false := by
    intro before
    have some : PackResponse.betweenFigures ≠ [] := List.cons_ne_nil _ _
    rw [List.getLast?_append_of_ne_nil _ some]
    rintro _ ⟨⟩
    exact colon
  rw [response.text_eq, budget.measure_append (.inr starts), budget.measure_append (.inl (ends' _)),
    budget.measure_append (.inr starts'), budget.measure_append (.inl ends),
    measure_numberText, measure_numberText, PackResponse.blankText,
    budget.measure_append (.inr starts), budget.measure_append (.inr starts')]
  omega

end PackBudget

end Figures

/-! ## Packs -/

/-- A call of `assemble_context_pack`. -/
structure PackRequest where
  sections : ContextSections
  driftHistory : List ContextRow
  fixed : PackFixed
  budget : PackBudget

namespace PackRequest

section Packs

variable (request : PackRequest)

def assemble : Except PackTooSmall (List Char) :=
  assembleContextPack request.sections request.driftHistory request.fixed request.budget

/-- The same answer with another limit. -/
def withLimit (limit : Nat) : PackRequest :=
  { request with budget := request.budget.withLimit limit }

/-- The sections of the answer, with the rows as they are packed. -/
def packSections : List (PackSection × List RowValue) :=
  (PackBuilder.pushAnswerSections request.sections request.driftHistory).sections

/-- The rows of the answer, best first. -/
def order : List PackCandidate :=
  sortByKey (PackBuilder.pushAnswerSections request.sections request.driftHistory).candidates

/-- The pack of the best rows: they stand in the order of their sections, and the drop account
has all other rows, worst first. -/
def packOf (kept measured : Nat) : PackResponse where
  fixed := request.fixed
  rows := rowsKept request.packSections (request.order.take kept)
  budget :=
    { budget := request.budget
      measured := measured
      dropped := (request.order.drop kept).reverse.map PackCandidate.dropId }

def packText (kept measured : Nat) : List Char := (request.packOf kept measured).text

/-- All rows, or some of the best rows but not none. -/
def IsPack (kept : Nat) : Prop :=
  kept = request.order.length ∨ 0 < kept ∧ kept ≤ request.order.length

/-- A pack that states its measure truly fits the budget. -/
def Fits (kept : Nat) : Prop :=
  ∃ measured, request.budget.measure (request.packText kept measured) = measured ∧
    measured ≤ request.budget.limit

/-- The size of a pack without its two figures. -/
def blankSize (kept : Nat) : Nat := request.budget.measure (request.packOf kept 0).blankText

/-- The size that a pack states. -/
def settledSize (kept : Nat) : Nat :=
  settle
    (fun figure => request.blankSize kept + request.budget.width request.budget.limit +
      request.budget.width figure) 8 0

/-- The size without figures does not depend on the limit. -/
theorem blankSize_withLimit (limit : Nat) :
    (request.withLimit limit).blankSize = request.blankSize := by
  obtain ⟨sections, driftHistory, fixed, budget⟩ := request
  cases budget <;> rfl

/-- A pack is as large as its rows and its two figures. -/
theorem measure_packText (kept measured : Nat) :
    request.budget.measure (request.packText kept measured) =
      request.blankSize kept + request.budget.width request.budget.limit +
        request.budget.width measured := by
  rw [packText, request.budget.measure_text]
  rfl

/-- The order of a pack arranges the candidates of the answer. -/
theorem perm_order : request.order.Perm
    (PackBuilder.pushAnswerSections request.sections request.driftHistory).candidates :=
  perm_sortByKey _

/-- Each row of the answer has one candidate. -/
theorem places_order :
    (request.order.map PackCandidate.place).Perm (placesOf request.packSections) := by
  rw [packSections, ← PackBuilder.places_pushAnswerSections]
  exact request.perm_order.map _

/-- It is the order of their keys. -/
theorem sorted_order : request.order.Pairwise fun candidate later =>
    candidate.key.order later.key = .lt := by
  apply sorted_sortByKey
  rw [PackBuilder.places_pushAnswerSections]
  exact nodup_placesOf _

variable {request} {kept : Nat}

/-- A pack keeps no more rows than there are. -/
theorem IsPack.le (isPack : request.IsPack kept) : kept ≤ request.order.length := by
  rcases isPack with rfl | ⟨-, below⟩
  · exact Nat.le_refl _
  · exact below

/-- The settled size is what the pack measures. -/
theorem measure_settledSize :
    request.budget.measure (request.packText kept (request.settledSize kept)) =
      request.settledSize kept := by
  rw [measure_packText]
  exact request.budget.figureWidth.settle_fixed _ 5

/-- A pack fits when it does with the limit as its own measure. -/
theorem fits_iff : request.Fits kept ↔
    request.blankSize kept + 2 * request.budget.width request.budget.limit ≤
      request.budget.limit := by
  simp only [Fits, measure_packText]
  rw [request.budget.figureWidth.fits_iff]
  omega

/-- A pack fits when its settled size does. -/
theorem settledSize_le_iff :
    request.settledSize kept ≤ request.budget.limit ↔ request.Fits kept := by
  constructor
  · exact fun below => ⟨_, measure_settledSize, below⟩
  · intro fits
    have room := fits_iff.mp fits
    apply request.budget.figureWidth.settle_le
    omega

/-! ### Rendering -/

/-- The loop over a pack settles its size. -/
theorem renderPack_eq {masks : KeepMasks} {dropped : List String}
    (rows : keptRows request.packSections masks =
      rowsKept request.packSections (request.order.take kept))
    (rest : dropped = (request.order.drop kept).reverse.map PackCandidate.dropId) :
    renderPack request.packSections masks dropped request.fixed request.budget =
      (request.packText kept (request.settledSize kept), request.settledSize kept) := by
  have render : renderPackOnce request.packSections masks dropped request.fixed request.budget =
      request.packText kept := by
    funext measured
    rw [renderPackOnce, rows, rest]
    rfl
  have size : settle (fun measured =>
      request.budget.measure (request.packText kept measured)) 8 0 =
        request.settledSize kept := by
    simp only [measure_packText]
    rfl
  rw [renderPack, render]
  simp only [size, measure_settledSize]

/-- The render of all rows is that of the whole order. -/
theorem renderPack_all :
    renderPack request.packSections
        (request.packSections.map fun answer => answer.2.map fun _ => true) []
        request.fixed request.budget =
      (request.packText request.order.length (request.settledSize request.order.length),
        request.settledSize request.order.length) := by
  apply renderPack_eq
  · rw [List.take_length]
    exact keptRows_all fun place member => request.places_order.mem_iff.mpr member
  · rw [List.drop_length]
    rfl

/-- The loop over the cuts ends with the last one that fits. -/
theorem foldl_bestFit {α : Type} (fits : Nat → Prop) [DecidablePred fits] (text : Nat → α)
    (total : Nat) {best : Option α}
    (loop : best = (List.range' 1 total).foldl
      (fun best cut => if fits cut then some (text cut) else best) none) :
    (∀ cut, IsGreatest {cut | 0 < cut ∧ cut ≤ total ∧ fits cut} cut → best = some (text cut)) ∧
      ((∀ cut, 0 < cut → cut ≤ total → ¬ fits cut) → best = none) := by
  induction total generalizing best with
  | zero =>
      refine ⟨fun cut greatest => ?_, fun _ => loop⟩
      obtain ⟨positive, below, -⟩ := greatest.1
      omega
  | succ total ih =>
      obtain ⟨some_, none_⟩ := ih rfl
      rw [List.range'_1_concat, List.foldl_append, List.foldl_cons, List.foldl_nil,
        Nat.add_comm 1 total] at loop
      by_cases last : fits (total + 1)
      · rw [if_pos last] at loop
        refine ⟨fun cut greatest => ?_, fun silent => ?_⟩
        · have above : total + 1 ≤ cut := greatest.2 ⟨Nat.succ_pos _, Nat.le_refl _, last⟩
          have below := greatest.1.2.1
          obtain rfl : cut = total + 1 := by omega
          exact loop
        · exact absurd last (silent (total + 1) (Nat.succ_pos _) (Nat.le_refl _))
      · rw [if_neg last] at loop
        rw [loop]
        refine ⟨fun cut greatest => some_ cut ?_, fun silent => none_ ?_⟩
        · obtain ⟨⟨positive, below, fitting⟩, above⟩ := greatest
          have earlier : cut ≠ total + 1 := by
            rintro rfl
            exact last fitting
          refine ⟨⟨positive, by omega, fitting⟩, fun other member => above ?_⟩
          exact ⟨member.1, member.2.1.trans (Nat.le_succ _), member.2.2⟩
        · exact fun cut positive below => silent cut positive (below.trans (Nat.le_succ _))

/-- What the assembly does, in terms of the packs. -/
theorem assemble_eq : request.assemble =
    if request.settledSize request.order.length ≤ request.budget.limit then
      .ok (request.packText request.order.length (request.settledSize request.order.length))
    else if request.order.length = 0 then
      .error (.new request.fixed.symbolName request.budget
        (request.settledSize request.order.length))
    else
      ((List.range' 1 request.order.length).foldl
        (fun best kept =>
          if request.settledSize kept ≤ request.budget.limit then
            some (request.packText kept (request.settledSize kept))
          else best) none).elim
        (.error (.new request.fixed.symbolName request.budget (request.settledSize 1))) .ok := by
  have cut : ∀ kept, renderPack request.packSections
      (masksOf request.packSections (request.order.take kept))
      ((request.order.drop kept).reverse.map PackCandidate.dropId)
      request.fixed request.budget = _ := fun kept => renderPack_eq (keptRows_masksOf _) rfl
  have all := @renderPack_all request
  simp only [packSections, order] at cut all ⊢
  simp only [assemble, assembleContextPack, all, cut]
  generalize (List.range' 1 _).foldl _ none = bestFit
  cases bestFit <;> rfl

/-! ### Outcomes -/

/-- The longest pack that fits is returned. -/
theorem assemble_of_greatest
    (longest : IsGreatest {kept | request.IsPack kept ∧ request.Fits kept} kept) :
    request.assemble = .ok (request.packText kept (request.settledSize kept)) := by
  obtain ⟨⟨isPack, fits⟩, above⟩ := longest
  rw [assemble_eq]
  by_cases all : request.settledSize request.order.length ≤ request.budget.limit
  · have whole : request.order.length ≤ kept := above ⟨.inl rfl, settledSize_le_iff.mp all⟩
    rw [if_pos all, Nat.le_antisymm whole isPack.le]
  · have part : 0 < kept ∧ kept ≤ request.order.length := by
      rcases isPack with rfl | part
      · exact absurd (settledSize_le_iff.mpr fits) all
      · exact part
    rw [if_neg all, if_neg (by omega), (foldl_bestFit _ _ _ rfl).1 kept, Option.elim_some]
    refine ⟨⟨part.1, part.2, settledSize_le_iff.mpr fits⟩, fun other member => above ?_⟩
    exact ⟨.inr ⟨member.1, member.2.1⟩, settledSize_le_iff.mp member.2.2⟩

/-- Where no pack fits, the size of the pack of the best row is reported. -/
theorem assemble_of_none (none_ : ¬ ∃ kept, request.IsPack kept ∧ request.Fits kept)
    (rows : request.order ≠ []) :
    request.assemble =
      .error (.new request.fixed.symbolName request.budget (request.settledSize 1)) := by
  have unfit : ∀ kept, request.IsPack kept → ¬ request.settledSize kept ≤ request.budget.limit :=
    fun kept isPack below => none_ ⟨kept, isPack, settledSize_le_iff.mp below⟩
  have some : request.order.length ≠ 0 := by simpa [List.length_eq_zero_iff] using rows
  rw [assemble_eq, if_neg (unfit _ (.inl rfl)), if_neg some,
    (foldl_bestFit _ _ _ rfl).2 fun kept positive below => unfit kept (.inr ⟨positive, below⟩),
    Option.elim_none]

/-- Of the packs that fit, one is the longest. -/
theorem exists_longest (some : ∃ kept, request.IsPack kept ∧ request.Fits kept) :
    ∃ kept, IsGreatest {kept | request.IsPack kept ∧ request.Fits kept} kept := by
  classical
  obtain ⟨kept, pack⟩ := some
  have greatest := Nat.findGreatest_spec
    (P := fun kept => request.IsPack kept ∧ request.Fits kept) pack.1.le pack
  exact ⟨_, greatest, fun other pack' => Nat.le_findGreatest pack'.1.le pack'⟩

/-- An answer is accepted exactly when some pack fits. -/
theorem assemble_isOk_iff :
    (∃ text, request.assemble = .ok text) ↔ ∃ kept, request.IsPack kept ∧ request.Fits kept := by
  constructor
  · rintro ⟨text, accepted⟩
    by_contra none_
    by_cases rows : request.order = []
    · have unfit : ¬ request.settledSize request.order.length ≤ request.budget.limit :=
        fun below => none_ ⟨_, .inl rfl, settledSize_le_iff.mp below⟩
      rw [assemble_eq, if_neg unfit, if_pos (by rw [rows]; rfl)] at accepted
      cases accepted
    · rw [assemble_of_none none_ rows] at accepted
      cases accepted
  · intro some
    obtain ⟨kept, longest⟩ := exists_longest some
    exact ⟨_, assemble_of_greatest longest⟩

/-- What is accepted is the longest pack, and it states its measure. -/
theorem assemble_longest {text : List Char} (accepted : request.assemble = .ok text) :
    ∃ kept measured, IsGreatest {kept | request.IsPack kept ∧ request.Fits kept} kept ∧
      text = request.packText kept measured ∧ request.budget.measure text = measured ∧
      measured ≤ request.budget.limit := by
  obtain ⟨kept, longest⟩ := exists_longest (assemble_isOk_iff.mp ⟨text, accepted⟩)
  rw [assemble_of_greatest longest] at accepted
  obtain rfl := Except.ok.inj accepted
  exact ⟨kept, _, longest, rfl, measure_settledSize, settledSize_le_iff.mpr longest.1.2⟩

end Packs

/-! ## The law -/

section Law

variable (request : PackRequest)

/-- What a budgeted answer promises. -/
structure PackLaw : Prop where
  /-- It is accepted exactly when some pack fits. -/
  accepts : (∃ text, request.assemble = .ok text) ↔
    ∃ kept, request.IsPack kept ∧ request.Fits kept
  /-- The longest pack that fits is returned, and states what it measures. -/
  longest : ∀ text, request.assemble = .ok text → ∃ kept measured,
    IsGreatest {kept | request.IsPack kept ∧ request.Fits kept} kept ∧
      text = request.packText kept measured ∧ request.budget.measure text = measured ∧
      measured ≤ request.budget.limit
  /-- Each row is kept or dropped once. -/
  places : (request.order.map PackCandidate.place).Perm (placesOf request.packSections)
  /-- A row is never dropped before one of lower priority. -/
  sorted : request.order.Pairwise fun candidate later => candidate.key.order later.key = .lt
  /-- The reported cost is the least budget that succeeds. -/
  floor : ∀ tooSmall, request.assemble = .error tooSmall → request.order ≠ [] →
    IsLeast {limit | ∃ text, (request.withLimit limit).assemble = .ok text}
      tooSmall.firstRecordCost

/-- The pack of the best row is longer than the shortest pack by as much as the budget is narrower
than the floor, figures aside. -/
def ReachesFloor : Prop :=
  ∃ size floor,
    IsLeast {size | ∃ kept, request.IsPack kept ∧ request.blankSize kept = size} size ∧
      IsLeast {limit | size + 2 * request.budget.width limit ≤ limit} floor ∧
      request.blankSize 1 + request.budget.width request.budget.limit =
        size + request.budget.width floor

variable {request}

/-- The budgets that succeed are those with room for the shortest pack. -/
theorem isOk_withLimit_iff {size limit : Nat}
    (shortest : IsLeast {size | ∃ kept, request.IsPack kept ∧ request.blankSize kept = size} size) :
    (∃ text, (request.withLimit limit).assemble = .ok text) ↔
      size + 2 * request.budget.width limit ≤ limit := by
  have packs : ∀ kept, (request.withLimit limit).IsPack kept ↔ request.IsPack kept :=
    fun _ => Iff.rfl
  have room : ∀ kept, (request.withLimit limit).Fits kept ↔
      request.blankSize kept + 2 * request.budget.width limit ≤ limit := by
    intro kept
    rw [fits_iff, blankSize_withLimit]
    simp only [withLimit, PackBudget.limit_withLimit, PackBudget.width_withLimit]
  rw [assemble_isOk_iff]
  simp only [packs, room]
  obtain ⟨⟨kept, isPack, isSize⟩, below⟩ := shortest
  constructor
  · rintro ⟨other, isPack', room⟩
    have shorter : size ≤ request.blankSize other := below ⟨other, isPack', rfl⟩
    omega
  · intro room
    exact ⟨kept, isPack, by omega⟩

/-- The size of the best row's pack is the least budget that succeeds exactly when it reaches the
floor. -/
theorem isLeast_settledSize_iff (rows : request.order ≠ []) :
    IsLeast {limit | ∃ text, (request.withLimit limit).assemble = .ok text}
        (request.settledSize 1) ↔ request.ReachesFloor := by
  classical
  have first : request.IsPack 1 := .inr ⟨Nat.one_pos, List.length_pos_of_ne_nil rows⟩
  have sizes : ∃ size kept, request.IsPack kept ∧ request.blankSize kept = size :=
    ⟨_, 1, first, rfl⟩
  have shortest : IsLeast {size | ∃ kept, request.IsPack kept ∧ request.blankSize kept = size}
      (Nat.find sizes) :=
    ⟨Nat.find_spec sizes, fun size some => Nat.find_min' sizes some⟩
  have limits : {limit | ∃ text, (request.withLimit limit).assemble = .ok text} =
      {limit | Nat.find sizes + 2 * request.budget.width limit ≤ limit} := by
    ext limit
    exact isOk_withLimit_iff shortest
  rw [limits]
  refine (request.budget.figureWidth.isLeast_settle_iff 5).trans ?_
  constructor
  · rintro ⟨floor, isFloor, balance⟩
    exact ⟨_, floor, shortest, isFloor, balance⟩
  · rintro ⟨size, floor, shortest', isFloor, balance⟩
    obtain rfl := shortest'.unique shortest
    exact ⟨floor, isFloor, balance⟩

/-- The law holds where there are no rows, where some pack fits, and where the pack of the best
row reaches the floor. -/
theorem packLaw_iff (request : PackRequest) :
    request.PackLaw ↔ request.order = [] ∨
      (∃ kept, request.IsPack kept ∧
        request.blankSize kept + 2 * request.budget.width request.budget.limit ≤
          request.budget.limit) ∨
      request.ReachesFloor := by
  simp only [← fits_iff]
  constructor
  · intro law
    by_cases rows : request.order = []
    · exact .inl rows
    · by_cases some : ∃ kept, request.IsPack kept ∧ request.Fits kept
      · exact .inr (.inl some)
      · exact .inr (.inr ((isLeast_settledSize_iff rows).mp
          (law.floor _ (assemble_of_none some rows) rows)))
  · intro condition
    refine ⟨assemble_isOk_iff, fun _ => assemble_longest, request.places_order,
      request.sorted_order, fun tooSmall failed rows => ?_⟩
    have none_ : ¬ ∃ kept, request.IsPack kept ∧ request.Fits kept := fun some => by
      obtain ⟨text, accepted⟩ := assemble_isOk_iff.mpr some
      rw [accepted] at failed
      cases failed
    rw [assemble_of_none none_ rows] at failed
    obtain rfl := Except.error.inj failed
    rcases condition with empty | some | reaches
    · exact absurd empty rows
    · exact absurd some none_
    · exact (isLeast_settledSize_iff rows).mpr reaches

end Law

end PackRequest

/-! ## A floor that is missed -/

/-- One source fact with a budget of bytes. -/
def mainRequest (limit : Nat) : PackRequest where
  sections :=
    { sourceFacts :=
        [{ recordId := "codegraph:v1:main"
           trust := .sourceDerived
           value :=
             [("record_id", quote "codegraph:v1:main"), ("kind", quote "symbol"),
               ("trust", quote "source_derived"), ("name", quote "main"),
               ("repo_relative_path", quote "src/main.rs")] }] }
  driftHistory := []
  fixed :=
    { symbolName := "main"
      freshness := none
      excluded := []
      corpusMode := "single_snapshot"
      corpusModeSource := "default"
      corpusDisclaimer := "one snapshot"
      storeCoverage := { codeGraph := true } }
  budget := .bytes limit

/-- A budget of bytes without room for the answer's only pack fails. -/
theorem mainRequest_fails {limit : Nat} (small : limit < 595 + 2 * decimalWidth limit) :
    (mainRequest limit).assemble =
      .error (.new "main" (.bytes limit)
        (settle (fun figure => 595 + decimalWidth limit + decimalWidth figure) 8 0)) := by
  have unlimited : (mainRequest 0).blankSize 1 = 595 := by decide +kernel
  have blank : (mainRequest limit).blankSize 1 = 595 := by
    rw [← unlimited]
    exact congrFun ((mainRequest 0).blankSize_withLimit limit) 1
  have total : (mainRequest limit).order.length = 1 := rfl
  have none_ : ¬ ∃ kept, (mainRequest limit).IsPack kept ∧ (mainRequest limit).Fits kept := by
    rintro ⟨kept, isPack, fits⟩
    have only : kept = 1 := by
      rcases isPack with all | ⟨positive, below⟩ <;> omega
    rw [PackRequest.fits_iff, only, blank] at fits
    exact Nat.lt_irrefl _ (small.trans_le fits)
  have rows : (mainRequest limit).order ≠ [] := List.ne_nil_of_length_pos (by omega)
  rw [PackRequest.assemble_of_none none_ rows, PackRequest.settledSize, blank]
  rfl

/-- The floor that a budget of five bytes reports is two bytes short: it does not count the two
digits more of its own figure. -/
theorem mainRequest_not_packLaw :
    (mainRequest 5).assemble = .error (.new "main" (.bytes 5) 599) ∧
      (mainRequest 599).assemble = .error (.new "main" (.bytes 599) 601) ∧
      ¬ (mainRequest 5).PackLaw := by
  have reports := @mainRequest_fails 5 (by decide)
  have fails := @mainRequest_fails 599 (by decide)
  refine ⟨reports, fails, fun law => ?_⟩
  have rows : (mainRequest 5).order ≠ [] := List.cons_ne_nil _ _
  obtain ⟨text, accepted⟩ := (law.floor _ reports rows).1
  cases fails.symm.trans accepted

end Egregore
