import Mathlib.Data.List.Forall2

/-!
Facts about results and lists that the proofs share.
-/

namespace AtomicCss

theorem bind_eq_ok {Fail First Second : Type} {first : Except Fail First}
    {next : First → Except Fail Second} {found : Second} :
    (first >>= next) = .ok found ↔ ∃ value, first = .ok value ∧ next value = .ok found := by
  cases first with
  | error error => simp [bind, Except.bind]
  | ok value => simp [bind, Except.bind]

/-- A loop finds the result of another one of whose steps it takes every successful one. -/
theorem foldlM_eq_ok {Fail State Item : Type} {step other : State → Item → Except Fail State}
    (each : ∀ state item next, step state item = .ok next → other state item = .ok next)
    {items : List Item} {state last : State} (walked : items.foldlM step state = .ok last) :
    items.foldlM other state = .ok last := by
  induction items generalizing state with
  | nil => exact walked
  | cons item rest ih =>
    rw [List.foldlM_cons] at walked ⊢
    obtain ⟨next, own, others⟩ := bind_eq_ok.mp walked
    exact bind_eq_ok.mpr ⟨next, each state item next own, ih others⟩

theorem bind_eq_error {Fail First Second : Type} {first : Except Fail First}
    {next : First → Except Fail Second} {error : Fail} :
    (first >>= next) = .error error ↔
      first = .error error ∨ ∃ value, first = .ok value ∧ next value = .error error := by
  cases first with
  | error own => simp [bind, Except.bind]
  | ok value => simp [bind, Except.bind]

/-- A loop succeeds if another one does, of whose successful steps it takes each from wherever it
is. -/
theorem foldlM_exists_ok {Fail State Item : Type} {step other : State → Item → Except Fail State}
    (each : ∀ state item next, step state item = .ok next →
      ∀ start, ∃ last, other start item = .ok last)
    {items : List Item} {state last : State} (walked : items.foldlM step state = .ok last)
    (start : State) : ∃ found, items.foldlM other start = .ok found := by
  induction items generalizing state start with
  | nil => exact ⟨start, rfl⟩
  | cons item rest ih =>
    rw [List.foldlM_cons] at walked ⊢
    obtain ⟨next, own, others⟩ := bind_eq_ok.mp walked
    obtain ⟨middle, taken⟩ := each state item next own start
    obtain ⟨found, rest_taken⟩ := ih others middle
    exact ⟨found, bind_eq_ok.mpr ⟨middle, taken, rest_taken⟩⟩

/-- What every step of a loop keeps holds of its result. -/
theorem foldlM_keeps {Fail State Item : Type} {step : State → Item → Except Fail State}
    (Holds : State → Prop) {items : List Item}
    (keeps : ∀ state, Holds state → ∀ item ∈ items, ∀ next, step state item = .ok next → Holds next)
    {state last : State} (holds : Holds state) (walked : items.foldlM step state = .ok last) :
    Holds last := by
  induction items generalizing state with
  | nil => exact Except.ok.inj walked ▸ holds
  | cons item rest ih =>
    rw [List.foldlM_cons] at walked
    obtain ⟨next, own, others⟩ := bind_eq_ok.mp walked
    apply ih _ (keeps state holds item List.mem_cons_self next own) others
    intro state holds other member
    exact keeps state holds other (List.mem_cons_of_mem _ member)

/-- A loop fails at one of its items. -/
theorem foldlM_eq_error {Fail State Item : Type} {step : State → Item → Except Fail State}
    {items : List Item} {state : State} {error : Fail}
    (failed : items.foldlM step state = .error error) :
    ∃ item ∈ items, ∃ state, step state item = .error error := by
  induction items generalizing state with
  | nil => cases failed
  | cons item rest ih =>
    rw [List.foldlM_cons] at failed
    rcases bind_eq_error.mp failed with here | ⟨next, -, later⟩
    · exact ⟨item, List.mem_cons_self, state, here⟩
    · obtain ⟨other, member, found⟩ := ih later
      exact ⟨other, List.mem_cons_of_mem _ member, found⟩

theorem forM_eq_ok {Fail Item : Type} {check : Item → Except Fail Unit} {items : List Item} :
    items.forM check = .ok () ↔ ∀ item ∈ items, check item = .ok () := by
  induction items with
  | nil => simp [List.forM, pure, Except.pure]
  | cons item rest ih =>
    change (check item >>= fun _ => rest.forM check) = _ ↔ _
    rw [bind_eq_ok, List.forall_mem_cons, ← ih]
    constructor
    · rintro ⟨⟨⟩, own, others⟩
      exact ⟨own, others⟩
    · rintro ⟨own, others⟩
      exact ⟨_, own, others⟩

theorem mapM_map_eq_ok {Fail First Second Third : Type} {read : Second → Except Fail Third}
    {name : First → Second} {found : First → Third} {items : List First}
    (each : ∀ item ∈ items, read (name item) = .ok (found item)) :
    (items.map name).mapM read = .ok (items.map found) := by
  induction items with
  | nil => rfl
  | cons item rest ih =>
    obtain ⟨own, others⟩ := List.forall_mem_cons.mp each
    rw [List.map_cons, List.mapM_cons, own, ih others]
    rfl

theorem exists_of_mapM_eq_some {First Second : Type} {read : First → Option Second}
    {items : List First} {found : List Second} (all : items.mapM read = some found) {other : Second}
    (member : other ∈ found) :
    ∃ item ∈ items, read item = some other := by
  induction items generalizing found with
  | nil =>
    cases all
    cases member
  | cons item rest ih =>
    simp only [List.mapM_cons, Option.bind_eq_bind, Option.bind_eq_some_iff] at all
    obtain ⟨own, read_own, others, read_rest, last⟩ := all
    cases last
    rcases List.mem_cons.mp member with rfl | later
    · exact ⟨item, List.mem_cons_self, read_own⟩
    · obtain ⟨inside, member, same⟩ := ih read_rest later
      exact ⟨inside, List.mem_cons_of_mem _ member, same⟩

theorem exists_of_mapM_eq_ok {Fail First Second : Type} {read : First → Except Fail Second}
    {items : List First} {found : List Second} (all : items.mapM read = .ok found) {other : Second}
    (member : other ∈ found) :
    ∃ item ∈ items, read item = .ok other := by
  induction items generalizing found with
  | nil =>
    cases all
    cases member
  | cons item rest ih =>
    rw [List.mapM_cons] at all
    obtain ⟨own, read_own, all⟩ := bind_eq_ok.mp all
    obtain ⟨others, read_rest, last⟩ := bind_eq_ok.mp all
    obtain rfl := Except.ok.inj last
    rcases List.mem_cons.mp member with rfl | later
    · exact ⟨item, List.mem_cons_self, read_own⟩
    · obtain ⟨inside, member, same⟩ := ih read_rest later
      exact ⟨inside, List.mem_cons_of_mem _ member, same⟩

theorem exists_left_of_forall₂ {α β : Type} {Related : α → β → Prop} {lefts : List α}
    {rights : List β} (related : List.Forall₂ Related lefts rights) {right : β}
    (member : right ∈ rights) :
    ∃ left ∈ lefts, Related left right := by
  induction related with
  | nil => cases member
  | cons own _ ih =>
    rcases List.mem_cons.mp member with rfl | there
    · exact ⟨_, List.mem_cons_self, own⟩
    · obtain ⟨left, inside, other⟩ := ih there
      exact ⟨left, List.mem_cons_of_mem _ inside, other⟩

theorem exists_right_of_forall₂ {α β : Type} {Related : α → β → Prop} {lefts : List α}
    {rights : List β} (related : List.Forall₂ Related lefts rights) {left : α}
    (member : left ∈ lefts) :
    ∃ right ∈ rights, Related left right :=
  exists_left_of_forall₂ (List.Forall₂.flip related) member

theorem forall₂_append_iff {α β : Type} {Related : α → β → Prop} {front back : List α}
    {others : List β} :
    List.Forall₂ Related (front ++ back) others ↔
      ∃ first second, List.Forall₂ Related front first ∧ List.Forall₂ Related back second ∧
        others = first ++ second := by
  constructor
  · intro related
    induction front generalizing others with
    | nil => exact ⟨[], others, .nil, related, rfl⟩
    | cons left front ih =>
      obtain ⟨right, rest, own, after, rfl⟩ := List.forall₂_cons_left_iff.mp related
      obtain ⟨first, second, here, there, rfl⟩ := ih after
      exact ⟨right :: first, second, .cons own here, there, rfl⟩
  · rintro ⟨first, second, here, there, rfl⟩
    exact List.rel_append here there

theorem nodup_of_forall₂ {α β : Type} {Related : α → β → Prop} {lefts : List α} {rights : List β}
    (related : List.Forall₂ Related lefts rights)
    (unique : ∀ {left first second}, Related left first → Related left second → first = second)
    (distinct : rights.Nodup) : lefts.Nodup := by
  induction related with
  | nil => exact List.nodup_nil
  | @cons left right lefts rights own rest ih =>
    obtain ⟨fresh, distinct⟩ := List.nodup_cons.mp distinct
    rw [List.nodup_cons]
    constructor
    · intro member
      obtain ⟨other, inside, same⟩ := exists_right_of_forall₂ rest member
      exact fresh (unique own same ▸ inside)
    · exact ih distinct

theorem eraseDups_concat {α : Type} [BEq α] [LawfulBEq α] (items : List α) (item : α) :
    (items ++ [item]).eraseDups =
      if item ∈ items then items.eraseDups else items.eraseDups ++ [item] := by
  rw [List.eraseDups_append]
  split <;> next present => simp [List.removeAll, present, List.eraseDups_cons]

/-- Of the items with a property one is the last. -/
theorem exists_last {α : Type} {Chosen : α → Prop} {items : List α}
    (some_item : ∃ item ∈ items, Chosen item) :
    ∃ front item back, items = front ++ item :: back ∧ Chosen item ∧
      ∀ other ∈ back, ¬ Chosen other := by
  induction items with
  | nil => simp at some_item
  | cons head rest ih =>
    by_cases later : ∃ item ∈ rest, Chosen item
    · obtain ⟨front, item, back, rfl, chosen, last⟩ := ih later
      exact ⟨head :: front, item, back, rfl, chosen, last⟩
    · obtain ⟨item, member, chosen⟩ := some_item
      rcases List.mem_cons.mp member with rfl | there
      · exact ⟨[], item, rest, rfl, chosen, fun other inside own => later ⟨other, inside, own⟩⟩
      · exact absurd ⟨item, there, chosen⟩ later

/-- An item between two parts of an ordered list keeps the order if it stands right to both. -/
theorem pairwise_insert {α : Type} {Before : α → α → Prop} {front back : List α} {item : α}
    (ordered : (front ++ back).Pairwise Before) (behind : ∀ earlier ∈ front, Before earlier item)
    (ahead : ∀ later ∈ back, Before item later) : (front ++ item :: back).Pairwise Before := by
  obtain ⟨front_ordered, back_ordered, across⟩ := List.pairwise_append.mp ordered
  rw [List.pairwise_append, List.pairwise_cons]
  refine ⟨front_ordered, ⟨ahead, back_ordered⟩, ?_⟩
  intro earlier inside other member
  rcases List.mem_cons.mp member with rfl | later
  · exact behind earlier inside
  · exact across earlier inside other later

variable {α : Type} {le : α → α → Bool}

/-- Items that all stand level come out in the order in which they went in. -/
theorem filter_mergeSort
    (trans : ∀ first second third, le first second → le second third → le first third)
    (total : ∀ first second, le first second || le second first) {chosen : α → Bool}
    (level : ∀ first second, chosen first → chosen second → le first second) (items : List α) :
    (items.mergeSort le).filter chosen = items.filter chosen := by
  have ordered : (items.filter chosen).Pairwise fun first second => le first second :=
    List.pairwise_of_forall_mem_list fun first left second right =>
      level first second (List.mem_filter.mp left).2 (List.mem_filter.mp right).2
  have kept := (List.sublist_mergeSort trans total ordered List.filter_sublist).filter chosen
  rw [List.filter_filter] at kept
  simp only [Bool.and_self] at kept
  have lengths := ((List.mergeSort_perm items le).filter chosen).length_eq
  exact (kept.eq_of_length lengths.symm).symm

/-- The first of an ordered list may stand before every item of another list with the same
levels. -/
theorem le_of_levels (total : ∀ first second, le first second || le second first) {head item : α}
    {rest items : List α} (ordered : (head :: rest).Pairwise fun first second => le first second)
    (levels : ∀ item, (head :: rest).filter (fun other => le item other && le other item) =
      items.filter fun other => le item other && le other item) (member : item ∈ items) :
    le head item = true := by
  have self : ∀ item, le item item = true := fun item => by simpa using total item item
  have found : item ∈ (head :: rest).filter fun other => le item other && le other item := by
    rw [levels]
    exact List.mem_filter.mpr ⟨member, by simp [self]⟩
  rcases List.mem_cons.mp (List.mem_of_mem_filter found) with rfl | behind
  · exact self item
  · exact (List.pairwise_cons.mp ordered).1 item behind

/-- An ordered list is given by its items at each level. -/
theorem eq_of_levels (total : ∀ first second, le first second || le second first)
    {items others : List α} (left : items.Pairwise fun first second => le first second)
    (right : others.Pairwise fun first second => le first second)
    (levels : ∀ item, items.filter (fun other => le item other && le other item) =
      others.filter fun other => le item other && le other item) : items = others := by
  have self : ∀ item, le item item = true := fun item => by simpa using total item item
  induction items generalizing others with
  | nil =>
    cases others with
    | nil => rfl
    | cons other others => simpa [self] using levels other
  | cons head rest ih =>
    cases others with
    | nil => simpa [self] using levels head
    | cons other others =>
      have below := le_of_levels total left levels List.mem_cons_self
      have above := le_of_levels total right (fun item => (levels item).symm) List.mem_cons_self
      have heads := levels head
      simp only [List.filter_cons, self, below, above, Bool.and_self, if_true] at heads
      obtain rfl := (List.cons.inj heads).1
      congr 1
      apply ih (List.pairwise_cons.mp left).2 (List.pairwise_cons.mp right).2
      intro item
      have whole := levels item
      by_cases same : (le item head && le head item) = true
      · simpa [same] using whole
      · simpa [same] using whole

/-- Lists with the same items of each rank are sorted alike. -/
theorem mergeSort_eq_of_rank (rank : α → Nat) {items others : List α}
    (levels : ∀ own, (items.filter fun item => rank item = own) =
      others.filter fun item => rank item = own) :
    (items.mergeSort fun first second => rank first ≤ rank second) =
      others.mergeSort fun first second => rank first ≤ rank second := by
  have trans : ∀ first second third, decide (rank first ≤ rank second) →
      decide (rank second ≤ rank third) → decide (rank first ≤ rank third) := by
    intro first second third below above
    simp only [decide_eq_true_eq] at below above ⊢
    omega
  have total :
      ∀ first second, decide (rank first ≤ rank second) || decide (rank second ≤ rank first) := by
    intro first second
    simp only [Bool.or_eq_true, decide_eq_true_eq]
    omega
  apply eq_of_levels total (List.pairwise_mergeSort trans total _)
    (List.pairwise_mergeSort trans total _)
  intro item
  have by_rank : (fun other => decide (rank item ≤ rank other) && decide (rank other ≤ rank item)) =
      fun other => decide (rank other = rank item) := by
    funext other
    rw [← Bool.decide_and, decide_eq_decide]
    omega
  have level (left right : α) (here : decide (rank left = rank item) = true)
      (there : decide (rank right = rank item) = true) :
        decide (rank left ≤ rank right) = true := by
    simp only [decide_eq_true_eq] at here there ⊢
    omega
  rw [by_rank, filter_mergeSort trans total level, filter_mergeSort trans total level, levels]

end AtomicCss
