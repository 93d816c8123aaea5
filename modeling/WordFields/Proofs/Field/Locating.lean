import WordFields.Proofs.Field.Result

/-!
# Which mark a search finds

A search for a mark goes from sibling to sibling, over elements only, and looks at everything inside
of each.  Forward it starts behind the element that holds a node, so what it finds is the first mark
of its kind in document order that is inside of a later sibling (`findsNext`).  Backward it starts
with the element that holds the node itself and stops at the nearest one that has a mark, but in
there it takes the first mark and not the nearest (`findsPrevious`).

`Document.WalksTo` is the walk of a search without a bound on its length, and
`Document.FirstAmong` says that a node is the first one in document order with some property.
-/

namespace WordFields

open scoped List

lemma FieldMark.ofName?_eq_some_iff {name : String} {mark : FieldMark} :
    FieldMark.ofName? name = some mark ↔ name = mark.name := by
  constructor
  · intro h
    simp only [ofName?, List.lookup_cons, List.lookup_nil] at h
    split at h
    next hname =>
      cases h
      exact eq_of_beq hname
    next =>
      split at h
      next hname =>
        cases h
        exact eq_of_beq hname
      next =>
        split at h
        next hname =>
          cases h
          exact eq_of_beq hname
        next => cases h
  · rintro rfl
    cases mark <;> rfl

namespace Document

variable {d : Document} {mark : FieldMark}

/-! ## Marks and places -/

/-- Whether a node is a mark of some kind inside of another node. -/
structure MarkInside (d : Document) (mark : FieldMark) (container id : NodeId) : Prop where
  below : d.Below container id
  isWord : d.isWord id "fldChar" = true
  type_eq : d.wordAttribute? id "fldCharType" = some mark.name

/-- Whether a node comes behind another one among the children of a node. -/
def LaterSibling (d : Document) (id later : NodeId) : Prop :=
  ∃ parent, [id, later] <+ d.children parent

/-- Whether a node is an element behind the one that holds `x`. -/
def Ahead (d : Document) (x sibling : NodeId) : Prop :=
  ∃ container, d.parent x = some container ∧ d.LaterSibling container sibling ∧
    d.isElement sibling = true

/-- Whether a node is the one that holds `x`, or an element before that one. -/
def AtOrBefore (d : Document) (x sibling : NodeId) : Prop :=
  ∃ container, d.parent x = some container ∧
    (sibling = container ∨ d.LaterSibling sibling container ∧ d.isElement sibling = true)

/-- Whether a node has a property and comes before all others that have it. -/
structure FirstAmong (d : Document) (P : NodeId → Prop) (found : NodeId) : Prop where
  holds : P found
  precedes : ∀ other, P other → other = found ∨ d.Precedes found other

/-- The walk from a node to the next one, by some step, until there is a mark inside of it. -/
inductive WalksTo (d : Document) (step : NodeId → Option NodeId) (mark : FieldMark) :
    Option NodeId → Option NodeId → Prop
  | off : WalksTo d step mark none none
  | here {n found : NodeId} (found_eq : d.markIn? mark n = some found) :
    WalksTo d step mark (some n) (some found)
  | on {n : NodeId} {result : Option NodeId} (missing : d.markIn? mark n = none)
      (rest : WalksTo d step mark (step n) result) : WalksTo d step mark (some n) result

/-- What a search forward from `x` gives. -/
structure FindsNext (d : Document) (mark : FieldMark) (x : NodeId) (result : Option NodeId) :
    Prop where
  walks : d.WalksTo d.nextElement? mark ((d.parent x).bind d.nextElement?) result
  eq_some_iff : ∀ found, result = some found ↔
    d.FirstAmong (fun id => ∃ sibling, d.Ahead x sibling ∧ d.MarkInside mark sibling id) found
  eq_none_iff : result = none ↔
    ∀ sibling, d.Ahead x sibling → ∀ id, ¬ d.MarkInside mark sibling id

/-- What a search backward from `x` gives. -/
structure FindsPrevious (d : Document) (mark : FieldMark) (x : NodeId) (result : Option NodeId) :
    Prop where
  walks : d.WalksTo d.previousElement? mark (d.parent x) result
  eq_some_iff : ∀ found, result = some found ↔ ∃ near, d.AtOrBefore x near ∧
    d.FirstAmong (d.MarkInside mark near) found ∧
      ∀ nearer, d.AtOrBefore x nearer → d.LaterSibling near nearer →
        ∀ id, ¬ d.MarkInside mark nearer id
  eq_none_iff : result = none ↔
    ∀ near, d.AtOrBefore x near → ∀ id, ¬ d.MarkInside mark near id

/-- The first kind of mark that the searches from an instruction do not find. -/
inductive FirstMissing (d : Document) (instruction : NodeId) : FieldMark → Prop
  | beginning (none : d.locatePrevious? instruction .beginning = none) :
    FirstMissing d instruction .beginning
  | separator {beginning : NodeId}
      (beginning_eq : d.locatePrevious? instruction .beginning = some beginning)
      (none : d.locateNext? instruction .separator = none) : FirstMissing d instruction .separator
  | ending {beginning separator : NodeId}
      (beginning_eq : d.locatePrevious? instruction .beginning = some beginning)
      (separator_eq : d.locateNext? instruction .separator = some separator)
      (none : d.locateNext? separator .ending = none) : FirstMissing d instruction .ending

/-! ## Marks inside of a node -/

lemma fieldMark?_eq_some_iff {id : NodeId} : d.fieldMark? id = some mark ↔
    d.isWord id "fldChar" = true ∧ d.wordAttribute? id "fldCharType" = some mark.name := by
  unfold fieldMark?
  split
  next hword =>
    simp only [Option.bind_eq_some_iff, FieldMark.ofName?_eq_some_iff, hword, true_and]
    constructor
    · rintro ⟨name, hname, rfl⟩
      exact hname
    · exact fun hname => ⟨_, hname, rfl⟩
  next hword => simp [hword]

lemma markInside_iff (hd : d.WellFormed) {container id : NodeId} : d.MarkInside mark container id ↔
    id ∈ d.wordDescendants container "fldChar" ∧ (d.fieldMark? id == some mark) = true := by
  rw [wordDescendants, descendantsIn, List.mem_filter, hd.mem_descendants, beq_iff_eq,
    fieldMark?_eq_some_iff]
  constructor
  · exact fun h => ⟨⟨h.below, h.isWord⟩, h.isWord, h.type_eq⟩
  · rintro ⟨⟨hbelow, hword⟩, -, htype⟩
    exact ⟨hbelow, hword, htype⟩

/-- The first member with some property of a list that is in document order. -/
lemma find?_eq_some_iff_firstAmong (hd : d.WellFormed) {top : NodeId} {ids : List NodeId}
    (hids : ids <+ d.descendants top) {test : NodeId → Bool} {P : NodeId → Prop}
    (hP : ∀ id, P id ↔ id ∈ ids ∧ test id = true) {found : NodeId} :
    ids.find? test = some found ↔ d.FirstAmong P found := by
  have hbelow : ∀ {id}, id ∈ ids → d.Below top id := fun hid =>
    hd.mem_descendants.1 (hids.subset hid)
  have hnodup : ids.Nodup := hids.nodup (hd.nodup_descendants top)
  constructor
  · intro hfind
    obtain ⟨htest, front, back, rfl, hfront⟩ := List.find?_eq_some_iff_append.1 hfind
    have hfound : found ∈ front ++ found :: back := by simp
    refine ⟨(hP found).2 ⟨hfound, htest⟩, fun other hother => ?_⟩
    obtain ⟨hmem, hotherTest⟩ := (hP other).1 hother
    rcases List.mem_append.1 hmem with hearlier | hmem
    · have hnot := hfront other hearlier
      rw [hotherTest] at hnot
      cases hnot
    · refine (List.mem_cons.1 hmem).imp_right fun hback => ⟨top, ?_⟩
      exact ((pair_sublist_middle_iff' hnodup).2 hback).trans hids
  · intro hfirst
    obtain ⟨hmem, htest⟩ := (hP found).1 hfirst.holds
    obtain ⟨front, back, heq⟩ := List.append_of_mem hmem
    refine List.find?_eq_some_iff_append.2 ⟨htest, front, back, heq, fun other hother => ?_⟩
    have hotherMem : other ∈ ids := heq ▸ List.mem_append_left _ hother
    have hbefore : d.Precedes other found := by
      refine ⟨top, List.Sublist.trans ?_ hids⟩
      rw [heq] at hnodup ⊢
      exact (pair_sublist_middle_iff hnodup).2 hother
    rw [Bool.not_eq_true']
    by_contra hyes
    rw [Bool.not_eq_false] at hyes
    rcases hfirst.precedes other ((hP other).2 ⟨hotherMem, hyes⟩) with rfl | hprecedes
    · exact hbefore.asymm hd hbefore
    · exact hprecedes.asymm hd hbefore

lemma markIn?_eq_some_iff (hd : d.WellFormed) {container found : NodeId} :
    d.markIn? mark container = some found ↔ d.FirstAmong (d.MarkInside mark container) found :=
  find?_eq_some_iff_firstAmong hd List.filter_sublist fun _ => markInside_iff hd

lemma markIn?_eq_none_iff (hd : d.WellFormed) {container : NodeId} :
    d.markIn? mark container = none ↔ ∀ id, ¬ d.MarkInside mark container id := by
  rw [markIn?, List.find?_eq_none]
  exact forall_congr' fun id => by rw [markInside_iff hd, not_and]

/-! ## Siblings -/

section

variable {id n : NodeId}

lemma LaterSibling.exists_parent (hd : d.WellFormed) (h : d.LaterSibling id n) :
    ∃ parent before after, d.children parent = before ++ id :: after ∧ n ∈ after := by
  obtain ⟨parent, hpair⟩ := h
  obtain ⟨before, after, hchildren⟩ := List.append_of_mem (hpair.subset List.mem_cons_self)
  have hnodup := hd.nodup_children parent
  rw [hchildren] at hpair hnodup
  exact ⟨parent, before, after, hchildren, (pair_sublist_middle_iff' hnodup).1 hpair⟩

lemma mem_followingElements_iff (hd : d.WellFormed) :
    n ∈ d.followingElements id ↔ d.LaterSibling id n ∧ d.isElement n = true := by
  rw [followingElements, List.mem_filter]
  refine and_congr_left fun _ => ⟨fun hn => ?_, fun hlater => ?_⟩
  · cases hparent : d.parent id with
    | none =>
      rw [followingSiblings, siblingsOf, hparent] at hn
      cases hn
    | some parent =>
      obtain ⟨before, after, hchildren⟩ := List.append_of_mem (hd.mem_of_parent hparent)
      rw [followingSiblings_eq hd hchildren] at hn
      refine ⟨parent, hchildren ▸ (pair_sublist_middle_iff' ?_).2 hn⟩
      exact hchildren ▸ hd.nodup_children parent
  · obtain ⟨parent, before, after, hchildren, hn⟩ := hlater.exists_parent hd
    rwa [followingSiblings_eq hd hchildren]

lemma mem_precedingElements_iff (hd : d.WellFormed) :
    n ∈ d.precedingElements id ↔ d.LaterSibling n id ∧ d.isElement n = true := by
  rw [precedingElements, List.mem_filter]
  refine and_congr_left fun _ => ⟨fun hn => ?_, fun hlater => ?_⟩
  · cases hparent : d.parent id with
    | none =>
      rw [precedingSiblings, siblingsOf, hparent] at hn
      cases hn
    | some parent =>
      obtain ⟨before, after, hchildren⟩ := List.append_of_mem (hd.mem_of_parent hparent)
      rw [precedingSiblings_eq hd hchildren, List.mem_reverse] at hn
      refine ⟨parent, hchildren ▸ (pair_sublist_middle_iff ?_).2 hn⟩
      exact hchildren ▸ hd.nodup_children parent
  · obtain ⟨parent, hpair⟩ := hlater
    have hmem : id ∈ d.children parent := hpair.subset (by simp)
    obtain ⟨before, after, hchildren⟩ := List.append_of_mem hmem
    have hnodup := hd.nodup_children parent
    rw [hchildren] at hpair hnodup
    rw [precedingSiblings_eq hd hchildren, List.mem_reverse]
    exact (pair_sublist_middle_iff hnodup).1 hpair

/-- The siblings before an element are in document order from the last one to the first. -/
lemma reverse_cons_precedingElements_sublist (hd : d.WellFormed) {parent : NodeId}
    (h : d.parent id = some parent) : (id :: d.precedingElements id).reverse <+ d.children parent := by
  obtain ⟨before, after, hchildren⟩ := List.append_of_mem (hd.mem_of_parent h)
  rw [precedingElements, precedingSiblings_eq hd hchildren, hchildren, List.filter_reverse,
    List.reverse_cons, List.reverse_reverse]
  exact List.filter_sublist.append (List.singleton_sublist.2 List.mem_cons_self)

lemma precedingElements_eq_nil (h : d.parent id = none) : d.precedingElements id = [] := by
  rw [precedingElements, precedingSiblings, siblingsOf, h]
  rfl

lemma nodup_cons_precedingElements (hd : d.WellFormed) (id : NodeId) :
    (id :: d.precedingElements id).Nodup := by
  cases hparent : d.parent id with
  | none =>
    rw [precedingElements_eq_nil hparent]
    exact List.nodup_singleton id
  | some parent =>
    have hsublist := reverse_cons_precedingElements_sublist hd hparent
    exact List.nodup_reverse.1 (hsublist.nodup (hd.nodup_children parent))

/-- The elements behind an element are the next one and those behind it. -/
lemma followingElements_eq_cons (hd : d.WellFormed) (h : d.nextElement? id = some n) :
    d.followingElements id = n :: d.followingElements n := by
  obtain ⟨rest, hrest⟩ := List.head?_eq_some_iff.1 h
  obtain ⟨parent, hparent⟩ := exists_parent_of_mem_followingElements
    (show n ∈ d.followingElements id by simp [hrest])
  obtain ⟨before, after, hchildren⟩ := List.append_of_mem (hd.mem_of_parent hparent)
  have hfiltered := hrest
  rw [followingElements, followingSiblings_eq hd hchildren] at hfiltered
  obtain ⟨skipped, back, rfl, -, -, hback⟩ := List.filter_eq_cons_iff.1 hfiltered
  rw [← List.cons_append, ← List.append_assoc] at hchildren
  rw [hrest, followingElements, followingSiblings_eq hd hchildren, hback]

/-- The elements before an element are the previous one and those before it. -/
lemma precedingElements_eq_cons (hd : d.WellFormed) (h : d.previousElement? id = some n) :
    d.precedingElements id = n :: d.precedingElements n := by
  obtain ⟨rest, hrest⟩ := List.head?_eq_some_iff.1 h
  obtain ⟨⟨parent, hpair⟩, -⟩ := (mem_precedingElements_iff hd).1
    (show n ∈ d.precedingElements id by simp [hrest])
  obtain ⟨before, after, hchildren⟩ :=
    List.append_of_mem (hpair.subset (show id ∈ [n, id] by simp))
  have hfiltered := hrest
  rw [precedingElements, precedingSiblings_eq hd hchildren] at hfiltered
  obtain ⟨skipped, back, hbefore, -, -, hback⟩ := List.filter_eq_cons_iff.1 hfiltered
  obtain rfl : before = back.reverse ++ n :: skipped.reverse := by
    rw [← List.reverse_inj, hbefore]
    simp
  rw [List.append_assoc, List.cons_append] at hchildren
  rw [hrest, precedingElements, precedingSiblings_eq hd hchildren, List.reverse_reverse, hback]

end

/-! ## Walks -/

section

variable {step : NodeId → Option NodeId} {beside : NodeId → List NodeId}

/-- A walk ends with what is found in the nodes that it comes by. -/
lemma walksTo_cons (hhead : ∀ n, (beside n).head? = step n)
    (hcons : ∀ {n next}, step n = some next → beside n = next :: beside next) (n : NodeId) :
    d.WalksTo step mark (some n) ((n :: beside n).findSome? (d.markIn? mark)) := by
  -- the induction is on the number of nodes that are still ahead
  induction hlength : (beside n).length using Nat.strong_induction_on generalizing n with
  | _ length ih =>
    cases hmark : d.markIn? mark n with
    | some found =>
      rw [List.findSome?_cons_of_isSome (by simp [hmark]), hmark]
      exact .here hmark
    | none =>
      rw [List.findSome?_cons_of_isNone (by simp [hmark])]
      refine .on hmark ?_
      cases hstep : step n with
      | none =>
        rw [List.head?_eq_none_iff.1 ((hhead n).trans hstep)]
        exact .off
      | some next =>
        have heq := hcons hstep
        rw [heq]
        refine ih _ ?_ next rfl
        rw [← hlength, heq]
        exact Nat.lt_succ_self _

end

/-! ## The searches -/

/-- A search forward finds the first mark behind the element that holds a node. -/
theorem findsNext (hd : d.WellFormed) (mark : FieldMark) (x : NodeId) :
    d.FindsNext mark x (d.locateNext? x mark) := by
  cases hparent : d.parent x with
  | none =>
    have hnot : ∀ sibling, ¬ d.Ahead x sibling := by
      rintro sibling ⟨container, hcontainer, -⟩
      rw [hparent] at hcontainer
      cases hcontainer
    have hlocate : d.locateNext? x mark = none := by rw [locateNext?, hparent]
    rw [hlocate]
    refine ⟨?_, fun found => ?_, ?_⟩
    · rw [hparent]
      exact .off
    · refine iff_of_false (Option.some_ne_none found).symm fun hfirst => ?_
      obtain ⟨sibling, hahead, -⟩ := hfirst.holds
      exact hnot sibling hahead
    · exact iff_of_true rfl fun sibling hahead => absurd hahead (hnot sibling)
  | some container =>
    have hahead : ∀ {sibling}, d.Ahead x sibling ↔ sibling ∈ d.followingElements container := by
      intro sibling
      rw [mem_followingElements_iff hd, Ahead, hparent]
      simp
    have hlocate : d.locateNext? x mark =
        (d.followingElements container).findSome? (d.markIn? mark) := by
      rw [locateNext?, hparent]
    refine ⟨?_, fun found => ?_, ?_⟩
    · rw [hlocate, hparent, Option.bind_some]
      cases hnext : d.nextElement? container with
      | none =>
        rw [List.head?_eq_none_iff.1 hnext]
        exact .off
      | some next =>
        rw [followingElements_eq_cons hd hnext]
        exact walksTo_cons (fun _ => rfl) (followingElements_eq_cons hd) next
    · obtain ⟨top, htop⟩ : ∃ top, (d.followingElements container).flatMap
          (fun n => d.wordDescendants n "fldChar") <+ d.descendants top := by
        cases htop : d.parent container with
        | none =>
          rw [followingElements_eq_nil htop]
          exact ⟨container, List.nil_sublist _⟩
        | some top => exact ⟨top, flatMap_wordDescendants_sublist hd htop "fldChar"⟩
      have hfind : d.locateNext? x mark = ((d.followingElements container).flatMap
          fun n => d.wordDescendants n "fldChar").find? fun id => d.fieldMark? id == some mark := by
        rw [hlocate, List.find?_flatMap]
        rfl
      rw [hfind]
      refine find?_eq_some_iff_firstAmong hd htop fun id => ?_
      simp only [hahead, markInside_iff hd, List.mem_flatMap]
      constructor
      · rintro ⟨sibling, hsibling, hid, hmark⟩
        exact ⟨⟨sibling, hsibling, hid⟩, hmark⟩
      · rintro ⟨⟨sibling, hsibling, hid⟩, hmark⟩
        exact ⟨sibling, hsibling, hid, hmark⟩
    · simp only [hlocate, List.findSome?_eq_none_iff, hahead, markIn?_eq_none_iff hd]

/-- The elements that a search backward comes by, the nearest first, are in the order of the
siblings from the last one to the first. -/
lemma laterSibling_iff_of_mem (hd : d.WellFormed) {container a b : NodeId}
    (ha : a ∈ container :: d.precedingElements container)
    (hb : b ∈ container :: d.precedingElements container) :
    d.LaterSibling a b ↔ [b, a] <+ container :: d.precedingElements container := by
  cases hparent : d.parent container with
  | none =>
    rw [precedingElements_eq_nil hparent, List.mem_singleton] at ha hb
    subst ha hb
    refine iff_of_false ?_ fun hpair => ?_
    · rintro ⟨parent, hpair⟩
      exact List.nodup_iff_sublist.1 (hd.nodup_children parent) _ hpair
    · exact List.nodup_iff_sublist.1 (nodup_cons_precedingElements hd _) _ hpair
  | some parent =>
    have hsublist := reverse_cons_precedingElements_sublist hd hparent
    have hiff := pair_sublist_iff_of_sublist (hd.nodup_children parent) hsublist
      (List.mem_reverse.2 ha) (List.mem_reverse.2 hb)
    have hreverse : [a, b] <+ (container :: d.precedingElements container).reverse ↔
        [b, a] <+ container :: d.precedingElements container := by
      rw [← List.reverse_sublist, List.reverse_reverse]
      rfl
    rw [← hreverse, hiff]
    refine ⟨fun hlater => ?_, fun hpair => ⟨parent, hpair⟩⟩
    obtain ⟨other, hpair⟩ := hlater
    have hother := hd.parent_of_mem (hpair.subset List.mem_cons_self)
    rw [hd.parent_of_mem (hsublist.subset (List.mem_reverse.2 ha))] at hother
    exact Option.some.inj hother ▸ hpair

/-- A search backward finds the first mark in the nearest element that has one. -/
theorem findsPrevious (hd : d.WellFormed) (mark : FieldMark) (x : NodeId) :
    d.FindsPrevious mark x (d.locatePrevious? x mark) := by
  cases hparent : d.parent x with
  | none =>
    have hnot : ∀ near, ¬ d.AtOrBefore x near := by
      rintro near ⟨container, hcontainer, -⟩
      rw [hparent] at hcontainer
      cases hcontainer
    have hlocate : d.locatePrevious? x mark = none := by rw [locatePrevious?, hparent]
    rw [hlocate]
    refine ⟨?_, fun found => ?_, ?_⟩
    · rw [hparent]
      exact .off
    · refine iff_of_false (Option.some_ne_none found).symm ?_
      rintro ⟨near, hnear, -⟩
      exact hnot near hnear
    · exact iff_of_true rfl fun near hnear => absurd hnear (hnot near)
  | some container =>
    have hnear : ∀ {near},
        d.AtOrBefore x near ↔ near ∈ container :: d.precedingElements container := by
      intro near
      rw [List.mem_cons, mem_precedingElements_iff hd, AtOrBefore, hparent]
      simp
    have hlocate : d.locatePrevious? x mark =
        (container :: d.precedingElements container).findSome? (d.markIn? mark) := by
      rw [locatePrevious?, hparent]
    refine ⟨?_, fun found => ?_, ?_⟩
    · rw [hlocate, hparent]
      exact walksTo_cons (fun _ => rfl) (precedingElements_eq_cons hd) container
    · rw [hlocate, findSome?_eq_some_iff_of_nodup (nodup_cons_precedingElements hd container)]
      refine exists_congr fun near => ?_
      rw [hnear, markIn?_eq_some_iff hd]
      refine and_congr_right fun hmem => and_congr_right fun _ => forall_congr' fun nearer => ?_
      rw [hnear]
      refine forall_congr' fun hmem' => ?_
      rw [laterSibling_iff_of_mem hd hmem hmem', markIn?_eq_none_iff hd]
    · simp only [hlocate, List.findSome?_eq_none_iff, hnear, markIn?_eq_none_iff hd]

/-! ## The marks of a field -/

lemma precedes_of_locateNext? (hd : d.WellFormed) {x found : NodeId}
    (h : d.locateNext? x mark = some found) : d.Precedes x found := by
  obtain ⟨sibling, ⟨container, hcontainer, ⟨parent, hpair⟩, -⟩, hinside⟩ :=
    (((findsNext hd mark x).eq_some_iff found).1 h).holds
  exact .of_siblings hd hpair (.inr (below_of_parent hcontainer)) (.inr hinside.below)

lemma locateTriad_eq_error_iff {instruction : NodeId} :
    d.locateTriad instruction = .error mark ↔ d.FirstMissing instruction mark := by
  constructor
  · intro h
    unfold locateTriad at h
    split at h
    next hbeginning =>
      cases h
      exact .beginning hbeginning
    next beginning hbeginning =>
      split at h
      next hseparator =>
        cases h
        exact .separator hbeginning hseparator
      next separator hseparator =>
        split at h
        next hending =>
          cases h
          exact .ending hbeginning hseparator hending
        next => cases h
  · rintro (hbeginning | ⟨hbeginning, hseparator⟩ | ⟨hbeginning, hseparator, hending⟩)
    · simp only [locateTriad, hbeginning]
    · simp only [locateTriad, hbeginning, hseparator]
    · simp only [locateTriad, hbeginning, hseparator, hending]

/-- A search for a mark goes from sibling to sibling and ends.  Forward it finds the first mark in
document order that is inside of an element behind the one that holds a node, backward the first one
inside of the nearest element that has one.  The marks of a field are found if all three searches
find theirs, and otherwise the first one that does not tells which mark is missing.  Marks that are
found are in their order. -/
theorem WellFormed.locate_documentOrder (hd : d.WellFormed) (x : NodeId) :
    (∀ mark, d.FindsNext mark x (d.locateNext? x mark)) ∧
    (∀ mark, d.FindsPrevious mark x (d.locatePrevious? x mark)) ∧
    (∀ triad, d.locateTriad x = .ok triad ↔
      d.locatePrevious? x .beginning = some triad.beginning ∧
        d.locateNext? x .separator = some triad.separator ∧
          d.locateNext? triad.separator .ending = some triad.ending) ∧
    (∀ mark, d.locateTriad x = .error mark ↔ d.FirstMissing x mark) ∧
    (∀ triad, d.locateTriad x = .ok triad →
      d.Precedes x triad.separator ∧ d.Precedes triad.separator triad.ending) := by
  refine ⟨fun mark => findsNext hd mark x, fun mark => findsPrevious hd mark x,
    fun triad => locateTriad_eq_ok_iff, fun mark => locateTriad_eq_error_iff, fun triad h => ?_⟩
  obtain ⟨-, hseparator, hending⟩ := locateTriad_eq_ok_iff.1 h
  exact ⟨precedes_of_locateNext? hd hseparator, precedes_of_locateNext? hd hending⟩

/-- A field whose first mark is one of two in a hyperlink, and whose other marks are inserted. -/
def insertedPage : Document :=
  ofForest [.word "p" [wordDeclaration]
    [(RunContent.mark .beginning).tree,
      .word "hyperlink" [] [(RunContent.mark .beginning).tree, (RunContent.mark .beginning).tree],
      .node (.text " ") [], (RunContent.instruction "PAGE").tree, .node (.comment "here") [],
      .word "ins" [] [(RunContent.mark .separator).tree, (RunContent.mark .ending).tree]]]

theorem locate_documentOrder_inserted :
    let d := insertedPage
    d.WellFormed ∧ d.locateTriad 11 = .ok ⟨6, 16, 18⟩ ∧
      (∃ near, d.AtOrBefore 11 near ∧ d.FirstAmong (d.MarkInside .beginning near) 6) ∧
      d.FirstAmong (fun id => ∃ sibling, d.Ahead 11 sibling ∧ d.MarkInside .separator sibling id)
        16 ∧
      d.Precedes 11 16 ∧ d.Precedes 16 18 ∧ d.FirstMissing 18 .beginning := by
  intro d
  have hd : d.WellFormed := (displays_ofForest _).wellFormed
  have htriad : d.locateTriad 11 = .ok ⟨6, 16, 18⟩ := by decide +kernel
  obtain ⟨hnext, hprevious, hok, -, horder⟩ := WellFormed.locate_documentOrder hd 11
  obtain ⟨-, -, -, herror, -⟩ := WellFormed.locate_documentOrder hd 18
  obtain ⟨hbeginning, hseparator, -⟩ := (hok _).1 htriad
  obtain ⟨near, hnear, hfirst, -⟩ := ((hprevious .beginning).eq_some_iff 6).1 hbeginning
  obtain ⟨hx, hmarks⟩ := horder _ htriad
  exact ⟨hd, htriad, ⟨near, hnear, hfirst⟩, ((hnext .separator).eq_some_iff 16).1 hseparator, hx,
    hmarks, (herror .beginning).1 (by decide +kernel)⟩

end Document

end WordFields
