import AtomicCss.Json.Parser
import AtomicCss.Proofs.Json.Numbers

/-!
Documents are read into values that hold each key once, and only numbers that fit.

The atoms that are read are scalars, and the entries of an object are set by key when its draft is
tidied up.
-/

namespace AtomicCss

namespace Keyed

variable {α : Type}

/-- What entries are set to in turn has distinct names, and each entry of it is one of them. -/
theorem ofList_spec (entries : List (String × α)) :
    ((ofList entries).map (·.1)).Nodup ∧ ∀ entry ∈ ofList entries, entry ∈ entries := by
  have folded (built : Keyed α) (distinct : (built.map (·.1)).Nodup) :
      ((entries.foldl (fun built entry => built.set entry.1 entry.2) built).map (·.1)).Nodup ∧
        ∀ entry ∈ entries.foldl (fun built entry => built.set entry.1 entry.2) built,
          entry ∈ built ∨ entry ∈ entries := by
    induction entries generalizing built with
    | nil => exact ⟨distinct, fun entry member => .inl member⟩
    | cons head rest ih =>
      obtain ⟨nodup, within⟩ := ih (built.set head.1 head.2) (nodup_set distinct _ _)
      refine ⟨nodup, fun entry member => ?_⟩
      rcases within entry member with before | later
      · rcases mem_set before with earlier | rfl
        · exact .inl earlier
        · exact .inr List.mem_cons_self
      · exact .inr (List.mem_cons_of_mem _ later)
  obtain ⟨distinct, within⟩ := folded [] List.nodup_nil
  exact ⟨distinct, fun entry member => (within entry member).resolve_left List.not_mem_nil⟩

end Keyed

namespace Json

/-- A draft whose atoms are sound. -/
inductive Draft.Plain : Draft → Prop where
  | atom {value} : (∀ json, value = some json → json.IsSound) → Plain (.atom value)
  | array {items} : (∀ item ∈ items, Plain item) → Plain (.array items)
  | object {fields} : (∀ field ∈ fields, Plain field.2) → Plain (.object fields)

theorem Draft.exists_of_tidyItems? {depth : Nat} {items : List Draft} {tidied : List Json}
    (all : tidyItems? depth items = some tidied) {json : Json} (member : json ∈ tidied) :
    ∃ item ∈ items, tidy? depth item = some json := by
  induction items generalizing tidied with
  | nil =>
    cases all
    cases member
  | cons item rest ih =>
    simp only [tidyItems?, Option.bind_eq_bind, Option.bind_eq_some_iff] at all
    obtain ⟨own, tidied_own, others, tidied_rest, last⟩ := all
    cases last
    rcases List.mem_cons.mp member with rfl | later
    · exact ⟨item, List.mem_cons_self, tidied_own⟩
    · obtain ⟨other, inside, found⟩ := ih tidied_rest later
      exact ⟨other, List.mem_cons_of_mem _ inside, found⟩

theorem Draft.exists_of_tidyFields? {depth : Nat} {fields : List (Option String × Draft)}
    {tidied : Keyed Json} (all : tidyFields? depth fields = some tidied) {entry : String × Json}
    (member : entry ∈ tidied) :
    ∃ field ∈ fields, tidy? depth field.2 = some entry.2 := by
  induction fields generalizing tidied with
  | nil =>
    cases all
    cases member
  | cons field rest ih =>
    simp only [tidyFields?, Option.bind_eq_bind, Option.bind_eq_some_iff] at all
    obtain ⟨key, -, own, tidied_own, others, tidied_rest, last⟩ := all
    cases last
    rcases List.mem_cons.mp member with rfl | later
    · exact ⟨field, List.mem_cons_self, tidied_own⟩
    · obtain ⟨other, inside, found⟩ := ih tidied_rest later
      exact ⟨other, List.mem_cons_of_mem _ inside, found⟩

theorem Draft.Plain.tidy {draft : Draft} (plain : draft.Plain) {depth : Nat} {json : Json}
    (tidied : draft.tidy? depth = some json) : json.IsSound := by
  induction plain generalizing depth json with
  | atom sound => exact sound json tidied
  | array _ ih =>
    cases depth with
    | zero => cases tidied
    | succ depth =>
      obtain ⟨items, all, rfl⟩ := Option.map_eq_some_iff.mp tidied
      refine isSound_array fun item member => ?_
      obtain ⟨own, inside, found⟩ := exists_of_tidyItems? all member
      exact ih own inside found
  | object _ ih =>
    cases depth with
    | zero => cases tidied
    | succ depth =>
      obtain ⟨fields, all, rfl⟩ := Option.map_eq_some_iff.mp tidied
      obtain ⟨distinct, within⟩ := Keyed.ofList_spec fields
      refine isSound_object distinct fun entry member => ?_
      obtain ⟨own, inside, found⟩ := exists_of_tidyFields? all (within entry member)
      exact ih own inside found

/-- An atom that is a scalar, or any other token. -/
def Token.Plain (token : Token) : Prop := ∀ json, token = .atom (some json) → json.IsSound

theorem isSound_numeral? {cs : List Char} {json : Json} (found : numeral? cs = some (some json)) :
    json.IsSound := by
  have whole {value : Int} (low : -(Nat.pow 2 63 : Int) ≤ value) (high : value < UInt64.size) :
      (Json.whole value).IsSound := by
    refine ⟨rfl, ?_⟩
    rw [numbersFit, decide_eq_true low, decide_eq_true high]
    rfl
  unfold numeral? at found
  dsimp only at found
  -- the sign is told from the digits first, so each kind of number comes once with it and once
  -- without
  repeat' split at found
  all_goals simp only [Option.some.injEq, reduceCtorEq] at found
  all_goals subst found
  case h_1.isTrue fits | h_2.isTrue fits =>
    simp only [Bool.and_eq_true, decide_eq_true_eq] at fits
    exact whole (by omega) (by omega)
  case h_1.isFalse.isTrue fits | h_2.isFalse.isTrue fits =>
    simp only [Bool.and_eq_true, decide_eq_true_eq] at fits
    exact whole (by omega) (by omega)
  case h_1.isFalse.isFalse.isTrue finite | h_2.isFalse.isFalse.isTrue finite => exact ⟨rfl, finite⟩

theorem isSound_word? {word : List Char} {json : Json} (found : word? word = some json) :
    json.IsSound := by
  unfold word? at found
  split at found <;> cases found <;> exact ⟨rfl, rfl⟩

theorem plain_punctuation? {c : Char} {token : Token} (found : punctuation? c = some token) :
    token.Plain := by
  unfold punctuation? at found
  split at found <;> cases found <;> nofun

theorem plain_tokens? {cs : List Char} {tokens : List Token} (found : tokens? cs = some tokens) :
    ∀ token ∈ tokens, token.Plain := by
  have follows {own : Token} {others : Option (List Token)} {tokens : List Token}
      (plain : own.Plain)
      (rest : ∀ {tokens}, others = some tokens → ∀ token ∈ tokens, token.Plain)
      (found : others.map (own :: ·) = some tokens) : ∀ token ∈ tokens, token.Plain := by
    obtain ⟨later, read, rfl⟩ := Option.map_eq_some_iff.mp found
    exact List.forall_mem_cons.mpr ⟨plain, rest read⟩
  fun_induction tokens? cs generalizing tokens with
  | case1 =>
    cases found
    exact List.forall_mem_nil _
  | case2 _ _ _ ih => exact ih found
  | case3 | case6 | case8 => cases found
  | case4 _ scanned _ _ ih =>
    have plain : (Token.text (textOf? scanned.1)).Plain := nofun
    exact follows plain ih found
  | case5 _ _ _ _ _ punctuation ih => exact follows (plain_punctuation? punctuation) ih found
  | case7 _ _ _ _ _ _ value numeral ih =>
    have plain : (Token.atom value).Plain := by
      intro json same
      cases same
      exact isSound_numeral? numeral
    exact follows plain ih found
  | case9 _ _ _ _ _ _ value word ih =>
    have plain : (Token.atom (some value)).Plain := by
      intro json same
      cases same
      exact isSound_word? word
    exact follows plain ih found

/-- An open container all of whose entries are plain. -/
def Frame.Plain : Frame → Prop
  | .items read => ∀ item ∈ read, item.Plain
  | .fields read _ => ∀ field ∈ read, field.2.Plain

structure Machine.Plain (machine : Machine) : Prop where
  frames : ∀ frame ∈ machine.frames, frame.Plain
  result : ∀ draft, machine.result = some draft → draft.Plain

namespace Machine

variable {frames : List Frame} {token : Token} {next : Machine}

theorem plain_give (plain : ∀ frame ∈ frames, frame.Plain) {value : Draft} (own : value.Plain) :
    (give frames value).Plain := by
  match frames with
  | [] => exact ⟨List.forall_mem_nil _, fun draft same => Option.some.inj same ▸ own⟩
  | .items read :: outer =>
    obtain ⟨inner, others⟩ := List.forall_mem_cons.mp plain
    exact ⟨List.forall_mem_cons.mpr ⟨List.forall_mem_cons.mpr ⟨own, inner⟩, others⟩, nofun⟩
  | .fields read key :: outer =>
    obtain ⟨inner, others⟩ := List.forall_mem_cons.mp plain
    exact ⟨List.forall_mem_cons.mpr ⟨List.forall_mem_cons.mpr ⟨own, inner⟩, others⟩, nofun⟩

theorem plain_beginValue (plain : ∀ frame ∈ frames, frame.Plain) (own : token.Plain)
    (taken : beginValue frames token = some next) : next.Plain := by
  cases token with
  | atom value =>
    cases taken
    exact plain_give plain (.atom fun json same => own json (congrArg _ same))
  | text content =>
    cases taken
    apply plain_give plain (.atom fun json same => ?_)
    obtain ⟨text, -, rfl⟩ := Option.map_eq_some_iff.mp same
    exact ⟨rfl, rfl⟩
  | openArray =>
    cases taken
    exact ⟨List.forall_mem_cons.mpr ⟨List.forall_mem_nil _, plain⟩, nofun⟩
  | openObject =>
    cases taken
    exact ⟨List.forall_mem_cons.mpr ⟨List.forall_mem_nil _, plain⟩, nofun⟩
  | closeObject | closeArray | colon | comma => cases taken

theorem plain_takeKey (plain : ∀ frame ∈ frames, frame.Plain)
    (taken : takeKey frames token = some next) :
    next.Plain := by
  unfold takeKey at taken
  split at taken
  · split at taken
    · cases taken
      obtain ⟨inner, others⟩ := List.forall_mem_cons.mp plain
      exact ⟨List.forall_mem_cons.mpr ⟨inner, others⟩, nofun⟩
    · cases taken
  · cases taken

theorem plain_close (plain : ∀ frame ∈ frames, frame.Plain)
    (taken : close frames token = some next) :
    next.Plain := by
  unfold close at taken
  split at taken
  · split at taken
    · cases taken
      obtain ⟨inner, others⟩ := List.forall_mem_cons.mp plain
      exact plain_give others (.array fun item member => inner item (List.mem_reverse.mp member))
    · cases taken
  · split at taken
    · cases taken
      obtain ⟨inner, others⟩ := List.forall_mem_cons.mp plain
      exact plain_give others (.object fun field member => inner field (List.mem_reverse.mp member))
    · cases taken
  · cases taken

theorem Plain.step {machine : Machine} (plain : machine.Plain) (own : token.Plain)
    (taken : machine.step token = some next) : next.Plain := by
  have either {first second : Option Machine} (left : first = some next → next.Plain)
      (right : second = some next → next.Plain) (taken : first.or second = some next) :
        next.Plain := by
    rcases Option.or_eq_some_iff.mp taken with here | ⟨-, there⟩
    · exact left here
    · exact right there
  have begun : beginValue machine.frames token = some next → next.Plain :=
    plain_beginValue plain.frames own
  have keyed : takeKey machine.frames token = some next → next.Plain := plain_takeKey plain.frames
  have closed : close machine.frames token = some next → next.Plain := plain_close plain.frames
  unfold Machine.step at taken
  dsimp only at taken
  split at taken
  · exact begun taken
  · exact either begun closed taken
  · exact either keyed closed taken
  · exact keyed taken
  · split at taken
    · cases taken
      exact ⟨plain.frames, nofun⟩
    · cases taken
  · split at taken
    · next same =>
      cases taken
      exact ⟨same ▸ plain.frames, nofun⟩
    · next same =>
      cases taken
      exact ⟨same ▸ plain.frames, nofun⟩
    · exact closed taken

theorem Plain.foldlM {tokens : List Token} (each : ∀ token ∈ tokens, token.Plain)
    {machine last : Machine} (plain : machine.Plain)
    (taken : tokens.foldlM Machine.step machine = some last) : last.Plain := by
  induction tokens generalizing machine with
  | nil =>
    cases taken
    exact plain
  | cons token rest ih =>
    obtain ⟨own, others⟩ := List.forall_mem_cons.mp each
    rw [List.foldlM_cons, Option.bind_eq_bind, Option.bind_eq_some_iff] at taken
    obtain ⟨next, stepped, taken_rest⟩ := taken
    exact ih others (plain.step own stepped) taken_rest

end Machine

theorem plain_read? {text : String} {draft : Draft} (found : read? text = some draft) :
    draft.Plain := by
  simp only [read?, Option.bind_eq_bind, Option.bind_eq_some_iff] at found
  obtain ⟨tokens, scanned, machine, taken, complete⟩ := found
  have started : Machine.start.Plain := ⟨List.forall_mem_nil _, nofun⟩
  exact (started.foldlM (plain_tokens? scanned) taken).result draft complete

/-- What a document is read into holds each key once, and only numbers that fit. -/
theorem isSound_parse? {text : String} {json : Json} (found : parse? text = some json) :
    json.IsSound := by
  obtain ⟨draft, read, tidied⟩ := Option.bind_eq_some_iff.mp found
  exact (plain_read? read).tidy tidied

end Json

end AtomicCss
