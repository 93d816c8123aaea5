import WordFields.Proofs.Markup.Acceptance
import WordFields.Proofs.Markup.FixedPoint
import WordFields.Proofs.Word.Twin

/-!
# A new node in front of an element

`Tree.Inserted` says of two lists of trees that the second has one more node, a leaf in front of
some element.  It is what a document shows after a node without children has been put before an
element (`Document.exists_inserted`); the proof goes up from the parent of the element, and what is
not on that way stays as it is.

A comment that comes into a document in this way comes into its markup and changes nothing else
there (`exists_toChars_inserted`).  Whether this markup is read as what the document shows
(`Document.ReadsBack`) is a question about the events of a content, and the comment is one more
event that is written and read without a condition on the others.  So the markup with a comment that
cannot end too early is read back if and only if the markup without it is
(`readsBack_insertNew_iff`).
-/

namespace WordFields

open Markup

/-- Trees and the same with a leaf in front of one of the elements. -/
inductive Tree.Inserted (new : NodeKind) : List Tree → List Tree → Prop
  | here (e : Element) (below trees : List Tree) :
    Inserted new (.node (.element e) below :: trees)
      (.node new [] :: .node (.element e) below :: trees)
  | behind (tree : Tree) {trees trees' : List Tree} (tail : Inserted new trees trees') :
    Inserted new (tree :: trees) (tree :: trees')
  | inside {top : NodeKind} (holds : top = .document ∨ top.isElement = true)
      {below below' : List Tree} (trees : List Tree) (inner : Inserted new below below') :
    Inserted new (.node top below :: trees) (.node top below' :: trees)

lemma Tree.Inserted.append {new : NodeKind} {trees trees' : List Tree}
    (h : Inserted new trees trees') (front : List Tree) :
    Inserted new (front ++ trees) (front ++ trees') := by
  induction front with
  | nil => exact h
  | cons tree front ih => exact .behind tree ih

lemma Tree.Inserted.ne_nil {new : NodeKind} {trees trees' : List Tree}
    (h : Inserted new trees trees') : trees ≠ [] ∧ trees' ≠ [] := by
  cases h <;> exact ⟨List.cons_ne_nil _ _, List.cons_ne_nil _ _⟩

namespace Document

variable {d d' : Document} {id top : NodeId}

/-! ## What the document shows -/

/-- No node is below two siblings. -/
lemma WellFormed.not_below_other (hd : d.WellFormed) {above x sibling : NodeId}
    (hx : x ∈ d.children above) (hsibling : sibling ∈ d.children above) (hne : sibling ≠ x)
    (hbelow : d.Below x id) : ¬ d.Below sibling id := by
  intro hbelow'
  rcases hbelow.comparable hbelow' with heq | hplace | hplace
  · exact hne heq.symm
  · exact hd.not_below_sibling hsibling hx hplace
  · exact hd.not_below_sibling hx hsibling hplace

section

variable (hd : d.WellFormed) (hparent : d.parent id = some top) (kind : NodeKind)

include hd hparent

lemma children_insertNew (x : NodeId) :
    (d.insertNew id kind).children x = placeBefore d.size id (d.children x) := by
  obtain ⟨-, -, -, hchildren⟩ := hd.insertNew_views kind hparent
  rw [hchildren]
  split
  next hx => rw [hx]
  next hx =>
    refine (placeBefore_of_not_mem fun hmem => hx ?_).symm
    exact Option.some.inj ((hd.parent_of_mem hmem).symm.trans hparent)

lemma kind_insertNew {x : NodeId} (hx : x < d.size) : (d.insertNew id kind).kind x = d.kind x := by
  obtain ⟨-, -, hkind, -⟩ := hd.insertNew_views kind hparent
  rw [hkind, if_neg (Nat.ne_of_lt hx)]

lemma shows_new : (d.insertNew id kind).Shows d.size (.node kind []) := by
  obtain ⟨-, -, hkind, -⟩ := hd.insertNew_views kind hparent
  refine .intro ?_ ?_
  · rw [hkind, if_pos rfl]
  · rw [children_insertNew hd hparent, children_of_size_le (Nat.le_refl _)]
    exact .nil

/-- What is not above the place of a new node stays as it is. -/
lemma shows_insertNew {x : NodeId} {tree : Tree} (hx : x < d.size) (hapart : ¬ d.Below x id)
    (h : d.Shows x tree) : (d.insertNew id kind).Shows x tree := by
  have hlt : ∀ y, y = x ∨ d.Below x y → y < d.size := by
    rintro y (rfl | hbelow)
    · exact hx
    · obtain ⟨parent, hstep, -⟩ := Relation.TransGen.head'_iff.1 hbelow
      exact hd.child_lt_size (hd.mem_of_parent hstep)
  refine h.congr hd (fun y hy => kind_insertNew hd hparent kind (hlt y hy)) fun y hy => ?_
  rw [children_insertNew hd hparent, placeBefore_of_not_mem]
  intro hmem
  have habove := below_of_parent (hd.parent_of_mem hmem)
  rcases hy with rfl | hbelow
  · exact hapart habove
  · exact hapart (hbelow.trans habove)

lemma forall₂_shows_insertNew {x : NodeId} {ids : List NodeId} {trees : List Tree}
    (hids : ∀ y ∈ ids, y ∈ d.children x ∧ ¬ d.Below y id) (h : List.Forall₂ d.Shows ids trees) :
    List.Forall₂ (d.insertNew id kind).Shows ids trees := by
  induction h with
  | nil => exact .nil
  | cons head _ ih =>
    obtain ⟨⟨hmem, hapart⟩, hrest⟩ := List.forall_mem_cons.1 hids
    exact .cons (shows_insertNew hd hparent kind (hd.child_lt_size hmem) hapart head) (ih hrest)

/-- The parent of the element shows one more leaf. -/
lemma exists_inserted_parent (helement : d.isElement id = true) {k : NodeKind} {trees : List Tree}
    (h : d.Shows top (.node k trees)) :
    ∃ trees', Tree.Inserted kind trees trees' ∧
      (d.insertNew id kind).Shows top (.node k trees') := by
  have hmem := hd.mem_of_parent hparent
  obtain ⟨front, back, hlist⟩ := List.append_of_mem hmem
  have hfront : id ∉ front := by
    have hnodup := hd.nodup_children top
    rw [hlist] at hnodup
    exact fun hfront => (List.nodup_append'.1 hnodup).2.2 hfront List.mem_cons_self
  have hold : ∀ y ∈ front ++ id :: back, y ∈ d.children top ∧ ¬ d.Below y id := by
    rw [← hlist]
    exact fun y hy => ⟨hy, hd.not_below_sibling hmem hy⟩
  have hforest := h.forest
  rw [hlist] at hforest
  obtain ⟨trees₁, ⟨kind', below⟩, trees₂, rfl, hfirst, hself, hlast⟩ :=
    rel_split (forall₂_shows_insertNew hd hparent kind hold hforest)
  obtain ⟨e, rfl⟩ : ∃ e, kind' = .element e := by
    rw [isElement, ← kind_insertNew hd hparent kind (hd.child_lt_size hmem), hself.kind_eq]
      at helement
    cases kind' with
    | element e => exact ⟨e, rfl⟩
    | _ => cases helement
  refine ⟨_, .append (.here e below trees₂) trees₁, .intro ?_ ?_⟩
  · rw [kind_insertNew hd hparent kind (lt_size_of_mem_children hmem), h.kind_eq]
  · rw [children_insertNew hd hparent, hlist, placeBefore_append hfront]
    exact List.rel_append hfirst (.cons (shows_new hd hparent kind) (.cons hself hlast))

/-- A node above the element shows one more leaf. -/
theorem exists_inserted (helement : d.isElement id = true)
    (habove : ∀ y, d.Below y id → d.kind y = .document ∨ d.isElement y = true) {x : NodeId}
    (hx : d.Below x id) {k : NodeKind} {trees : List Tree} (h : d.Shows x (.node k trees)) :
    ∃ trees', Tree.Inserted kind trees trees' ∧ (d.insertNew id kind).Shows x (.node k trees') := by
  induction hx generalizing k trees with
  | @single x hstep =>
    obtain rfl : top = x := Option.some.inj (hparent.symm.trans hstep)
    exact exists_inserted_parent hd hparent kind helement h
  | @tail middle x hmiddle hstep ih =>
    have hmem := hd.mem_of_parent hstep
    obtain ⟨front, back, hlist⟩ := List.append_of_mem hmem
    have hforest := h.forest
    rw [hlist] at hforest
    obtain ⟨trees₁, ⟨kind', below⟩, trees₂, rfl, hfirst, hself, hlast⟩ := rel_split hforest
    obtain ⟨below', hinserted, hself'⟩ := ih hself
    have hholds := habove middle hmiddle
    rw [isElement, hself.kind_eq] at hholds
    have hsame : ∀ {siblings : List NodeId} {shown : List Tree}, siblings ⊆ front ++ back →
        List.Forall₂ d.Shows siblings shown →
          List.Forall₂ (d.insertNew id kind).Shows siblings shown := by
      intro siblings shown hsubset
      refine forall₂_shows_insertNew hd hparent kind (x := x) fun y hy => ?_
      have hnodup := hd.nodup_children x
      rw [hlist] at hnodup
      have hne : y ≠ middle := fun heq =>
        (List.nodup_cons.1 (List.nodup_middle.1 hnodup)).1 (hsubset (heq ▸ hy))
      have hy' : y ∈ d.children x := by
        rw [hlist, List.mem_append, List.mem_cons]
        exact (List.mem_append.1 (hsubset hy)).imp_right .inr
      exact ⟨hy', hd.not_below_other hmem hy' hne hmiddle⟩
    refine ⟨_, .append (.inside hholds trees₂ hinserted) trees₁, .intro ?_ ?_⟩
    · rw [kind_insertNew hd hparent kind (lt_size_of_mem_children hmem), h.kind_eq]
    · have hnot : id ∉ d.children x := fun hid => hd.not_below_sibling hid hmem hmiddle
      rw [children_insertNew hd hparent, placeBefore_of_not_mem hnot, hlist]
      refine List.rel_append (hsame (List.subset_append_left _ _) hfirst) (.cons hself' ?_)
      exact hsame (List.subset_append_right _ _) hlast

end

/-! ## What the document is written as -/

lemma flatMap_nodeMarkup_eq {trees : List Tree} {ids ids' : List NodeId}
    (h : List.Forall₂ d.Shows ids trees) (h' : List.Forall₂ d'.Shows ids' trees)
    {depth depth' : Nat} (hdepth : forestHeight trees ≤ depth)
    (hdepth' : forestHeight trees ≤ depth') :
    ids'.flatMap (d'.nodeMarkup depth') = ids.flatMap (d.nodeMarkup depth) := by
  induction trees generalizing ids ids' with
  | nil =>
    obtain rfl := List.forall₂_nil_right_iff.1 h
    obtain rfl := List.forall₂_nil_right_iff.1 h'
    rfl
  | cons tree trees ih =>
    obtain ⟨x, ids, hx, hids, rfl⟩ := List.forall₂_cons_right_iff.1 h
    obtain ⟨x', ids', hx', hids', rfl⟩ := List.forall₂_cons_right_iff.1 h'
    obtain ⟨htree, hrest⟩ := max_le_iff.1 hdepth
    obtain ⟨htree', hrest'⟩ := max_le_iff.1 hdepth'
    rw [List.flatMap_cons, List.flatMap_cons, hx.nodeMarkup_eq hx' htree htree',
      ih hids hids' hrest hrest']

/-- A new comment comes into the markup at one place. -/
lemma exists_flatMap_inserted {value : String} {trees trees' : List Tree}
    (hinserted : Tree.Inserted (.comment value) trees trees') {ids ids' : List NodeId}
    (h : List.Forall₂ d.Shows ids trees) (h' : List.Forall₂ d'.Shows ids' trees')
    {depth depth' : Nat} (hdepth : forestHeight trees ≤ depth)
    (hdepth' : forestHeight trees' ≤ depth') :
    ∃ front back, ids.flatMap (d.nodeMarkup depth) = front ++ back ∧
      ids'.flatMap (d'.nodeMarkup depth') =
        front ++ ("<!--".toList ++ value.toList ++ "-->".toList) ++ back := by
  induction hinserted generalizing ids ids' depth depth' with
  | here e below trees =>
    obtain ⟨x', ids', hx', hids', rfl⟩ := List.forall₂_cons_right_iff.1 h'
    obtain ⟨htree', hrest'⟩ := max_le_iff.1 hdepth'
    obtain ⟨depth', rfl⟩ := Tree.exists_succ_of_height_le htree'
    refine ⟨[], ids.flatMap (d.nodeMarkup depth), rfl, ?_⟩
    rw [List.flatMap_cons, flatMap_nodeMarkup_eq h hids' hdepth hrest', nodeMarkup, hx'.kind_eq]
    rfl
  | behind tree _ ih =>
    obtain ⟨x, ids, hx, hids, rfl⟩ := List.forall₂_cons_right_iff.1 h
    obtain ⟨x', ids', hx', hids', rfl⟩ := List.forall₂_cons_right_iff.1 h'
    obtain ⟨htree, hrest⟩ := max_le_iff.1 hdepth
    obtain ⟨htree', hrest'⟩ := max_le_iff.1 hdepth'
    obtain ⟨front, back, hold, hnew⟩ := ih hids hids' hrest hrest'
    refine ⟨d.nodeMarkup depth x ++ front, back, ?_, ?_⟩
    · rw [List.flatMap_cons, hold, List.append_assoc]
    · rw [List.flatMap_cons, hnew, hx.nodeMarkup_eq hx' htree htree']
      simp only [List.append_assoc]
  | @inside top holds below below' trees inner ih =>
    obtain ⟨x, ids, hx, hids, rfl⟩ := List.forall₂_cons_right_iff.1 h
    obtain ⟨x', ids', hx', hids', rfl⟩ := List.forall₂_cons_right_iff.1 h'
    obtain ⟨htree, hrest⟩ := max_le_iff.1 hdepth
    obtain ⟨htree', hrest'⟩ := max_le_iff.1 hdepth'
    obtain ⟨depth, rfl⟩ := Tree.exists_succ_of_height_le htree
    obtain ⟨depth', rfl⟩ := Tree.exists_succ_of_height_le htree'
    obtain ⟨front, back, hold, hnew⟩ := ih hx.forest hx'.forest (Nat.le_of_succ_le_succ htree)
      (Nat.le_of_succ_le_succ htree')
    rw [List.flatMap_cons, List.flatMap_cons, flatMap_nodeMarkup_eq hids hids' hrest hrest',
      nodeMarkup, nodeMarkup, hx.kind_eq, hx'.kind_eq]
    generalize ids.flatMap (d.nodeMarkup (depth + 1)) = rest
    cases top with
    | document => exact ⟨front, back ++ rest, by simp [hold], by simp [hnew]⟩
    | element e =>
      obtain ⟨hbelow, hbelow'⟩ := inner.ne_nil
      have hchildren : (d.children x).isEmpty = false := by
        rw [List.isEmpty_eq_false_iff]
        exact fun hnil => hbelow (List.forall₂_nil_left_iff.1 (hnil ▸ hx.forest))
      have hchildren' : (d'.children x').isEmpty = false := by
        rw [List.isEmpty_eq_false_iff]
        exact fun hnil => hbelow' (List.forall₂_nil_left_iff.1 (hnil ▸ hx'.forest))
      refine ⟨'<' :: tagMarkup e ++ '>' :: front,
        back ++ "</".toList ++ e.name.toChars ++ ['>'] ++ rest, ?_, ?_⟩
      · simp [elementMarkup, hchildren, hold]
      · simp [elementMarkup, hchildren', hnew]
    | _ => simp [NodeKind.isElement, NodeKind.element?] at holds

/-- A comment that is put before an element of a document is put into its markup. -/
theorem exists_toChars_inserted {value : String} {kind : NodeKind} {trees trees' : List Tree}
    (h : d.Shows root (.node kind trees)) (h' : d'.Shows root (.node kind trees'))
    (hinserted : Tree.Inserted (.comment value) trees trees') :
    ∃ front back, d.toChars = front ++ back ∧
      d'.toChars = front ++ ("<!--".toList ++ value.toList ++ "-->".toList) ++ back := by
  have hheight : ∀ {d : Document} {trees : List Tree}, d.Shows root (.node kind trees) →
      forestHeight trees ≤ d.size := fun h =>
    Nat.le_of_succ_le_succ (h.height_le List.nodup_nil (fun _ hx => nomatch hx)
      fun _ hx => nomatch hx)
  exact exists_flatMap_inserted hinserted h.forest h'.forest (hheight h) (hheight h')

end Document

namespace Markup

/-! ## What is read -/

/-- A content and the same with a comment in front of one of its elements. -/
inductive Content.Inserted (value : List Char) : Content → Content → Prop
  | here (opening : Opening) (content rest : Content) :
    Inserted value (element opening content rest)
      (leaf (.comment value) (element opening content rest))
  | leaf (head : Leaf) {rest rest' : Content} (tail : Inserted value rest rest') :
    Inserted value (leaf head rest) (leaf head rest')
  | inside (opening : Opening) {content content' : Content} (rest : Content)
      (inner : Inserted value content content') :
    Inserted value (element opening content rest) (element opening content' rest)
  | behind (opening : Opening) (content : Content) {rest rest' : Content}
      (tail : Inserted value rest rest') :
    Inserted value (element opening content rest) (element opening content rest')

lemma Leaf.kind_inj {leaf leaf' : Leaf} (h : leaf.kind = leaf'.kind) : leaf = leaf' := by
  cases leaf <;> cases leaf' <;> first | cases h | skip
  all_goals
    simp only [Leaf.kind, NodeKind.text.injEq, NodeKind.cdata.injEq, NodeKind.comment.injEq,
      NodeKind.declaration.injEq, NodeKind.processing.injEq, NodeKind.doctype.injEq] at h
    rw [String.ofList_injective h]

namespace Content

/-- Whether contents are related if they differ at one place only, in a related way. -/
structure Local (R : Content → Content → Prop) : Prop where
  leaf : ∀ head {rest rest' : Content}, R rest rest' → R (leaf head rest) (leaf head rest')
  inside : ∀ opening {content content' : Content} rest, R content content' →
    R (element opening content rest) (element opening content' rest)
  behind : ∀ opening content {rest rest' : Content}, R rest rest' →
    R (element opening content rest) (element opening content rest')

lemma local_inserted (value : List Char) : Local (Inserted value) :=
  ⟨.leaf, .inside, .behind⟩

namespace Local

variable {R : Content → Content → Prop} {content : Content} {scopes : List (List Binding)}
  {trees trees' : List Tree}

lemma flip (h : Local R) : Local fun content content' => R content' content where
  leaf head _ _ hR := h.leaf head hR
  inside opening _ _ rest hR := h.inside opening rest hR
  behind opening content _ _ hR := h.behind opening content hR

lemma exists_behind (h : Local R)
    (hrest : ∀ {rest : Content}, rest.trees scopes = trees →
      ∃ rest' : Content, R rest rest' ∧ rest'.trees scopes = trees')
    {tree : Tree} (htrees : content.trees scopes = tree :: trees) :
    ∃ content' : Content, R content content' ∧ content'.trees scopes = tree :: trees' := by
  cases content with
  | nil => cases htrees
  | leaf head rest =>
    obtain ⟨rfl, heq⟩ := List.cons.inj htrees
    obtain ⟨rest', hR, heq'⟩ := hrest heq
    exact ⟨_, h.leaf head hR, by rw [Content.trees, heq']⟩
  | element opening content rest =>
    obtain ⟨rfl, heq⟩ := List.cons.inj htrees
    obtain ⟨rest', hR, heq'⟩ := hrest heq
    exact ⟨_, h.behind opening content hR, by rw [Content.trees, heq']⟩

lemma exists_inside (h : Local R) {below below' : List Tree} (hne : below ≠ [])
    (hbelow : ∀ {scopes : List (List Binding)} {content : Content}, content.trees scopes = below →
      ∃ content' : Content, R content content' ∧ content'.trees scopes = below')
    {top : NodeKind} (htrees : content.trees scopes = .node top below :: trees) :
    ∃ content' : Content,
      R content content' ∧ content'.trees scopes = .node top below' :: trees := by
  cases content with
  | nil => cases htrees
  | leaf head rest =>
    obtain ⟨htree, -⟩ := List.cons.inj htrees
    obtain ⟨-, hnil⟩ := Tree.node.inj htree
    exact absurd hnil.symm hne
  | element opening content rest =>
    obtain ⟨htree, rfl⟩ := List.cons.inj htrees
    obtain ⟨rfl, heq⟩ := Tree.node.inj htree
    obtain ⟨content', hR, heq'⟩ := hbelow heq
    exact ⟨_, h.inside opening rest hR, by rw [Content.trees, heq']⟩

end Local

end Content

end Markup

namespace Tree.Inserted

variable {value : List Char} {trees trees' : List Tree}

/-- What has the trees of a content, and a comment more, has those of the content with a comment. -/
lemma exists_content (h : Inserted (.comment (String.ofList value)) trees trees')
    {content : Content} {scopes : List (List Binding)} (htrees : content.trees scopes = trees) :
    ∃ content' : Content, content.Inserted value content' ∧ content'.trees scopes = trees' := by
  have hlocal := Content.local_inserted value
  induction h generalizing content scopes with
  | here e below trees =>
    cases content with
    | nil => cases htrees
    | leaf head rest => cases head <;> cases htrees
    | element opening content rest =>
      exact ⟨_, .here opening content rest, by rw [Content.trees, htrees]; rfl⟩
  | behind tree _ ih => exact hlocal.exists_behind ih htrees
  | inside _ _ inner ih => exact hlocal.exists_inside inner.ne_nil.1 ih htrees

/-- What is, with a comment more, the trees of a content is those of the content without it. -/
lemma exists_content_without (h : Inserted (.comment (String.ofList value)) trees trees')
    {content' : Content} {scopes : List (List Binding)} (htrees : content'.trees scopes = trees') :
    ∃ content : Content, content.Inserted value content' ∧ content.trees scopes = trees := by
  have hlocal := (Content.local_inserted value).flip
  induction h generalizing content' scopes with
  | here e below trees =>
    cases content' with
    | nil => cases htrees
    | element opening content rest => cases htrees
    | leaf head rest =>
      obtain ⟨htree, hrest⟩ := List.cons.inj htrees
      obtain ⟨hkind, -⟩ := Tree.node.inj htree
      obtain rfl : head = .comment value := Leaf.kind_inj hkind
      cases rest with
      | nil => cases hrest
      | leaf head rest => cases head <;> cases hrest
      | element opening content rest => exact ⟨_, .here opening content rest, hrest⟩
  | behind tree _ ih => exact hlocal.exists_behind ih htrees
  | inside _ _ inner ih => exact hlocal.exists_inside inner.ne_nil.2 ih htrees

end Tree.Inserted

namespace Markup

open Text

namespace Content

variable {value : List Char} {content content' : Content}

namespace Inserted

lemma isEmpty_events (h : Inserted value content content') :
    content'.events.isEmpty = content.events.isEmpty := by
  have hempty : ∀ {content : Content}, content ≠ nil → content.events.isEmpty = false :=
    fun hne => List.isEmpty_eq_false_iff.2 (mt events_eq_nil_iff.1 hne)
  cases h <;> rw [hempty (by rintro ⟨⟩), hempty (by rintro ⟨⟩)]

/-- The comment is one more event. -/
lemma forall_events_iff (h : Inserted value content content') {q : Event → Prop}
    (hcomment : q (.comment value)) :
    (∀ event ∈ content'.events, q event) ↔ ∀ event ∈ content.events, q event := by
  induction h with
  | here _ _ _ =>
    rw [events, List.forall_mem_cons]
    exact and_iff_right hcomment
  | leaf head _ ih => rw [events, events, List.forall_mem_cons, List.forall_mem_cons, ih]
  | inside opening rest inner ih =>
    rw [events, events, List.forall_mem_append, List.forall_mem_append, Opening.forall_events_iff,
      Opening.forall_events_iff, inner.isEmpty_events, ih]
  | behind opening content _ ih =>
    rw [events, events, List.forall_mem_append, List.forall_mem_append, ih]

lemma fits_iff (h : Inserted value content content') : content'.Fits ↔ content.Fits := by
  induction h with
  | here _ _ _ => exact and_iff_right trivial
  | leaf head _ ih => exact and_congr_right' ih
  | inside opening rest _ ih => exact and_congr_right' (and_congr_left' ih)
  | behind opening content _ ih => exact and_congr_right' (and_congr_right' ih)

lemma roots_eq (h : Inserted value content content') : content'.roots = content.roots := by
  induction h with
  | here _ _ _ => rfl
  | leaf _ _ ih => exact ih
  | inside _ _ _ _ => rfl
  | behind _ _ _ ih => exact congrArg (· + 1) ih

lemma blank_iff (h : Inserted value content content') : content'.Blank ↔ content.Blank := by
  induction h with
  | here _ _ _ => exact Iff.rfl
  | leaf head _ ih =>
    cases head with
    | text value => exact and_congr_right' ih
    | _ => exact ih
  | inside _ _ _ _ => exact Iff.rfl
  | behind _ _ _ ih => exact ih

lemma textFirst_events (h : Inserted value content content') :
    textFirst content'.events = textFirst content.events := by
  cases h with
  | here opening _ _ => exact Opening.textFirst_events.symm
  | leaf head _ => rfl
  | inside opening _ _ => exact Opening.textFirst_events.trans Opening.textFirst_events.symm
  | behind opening _ _ => exact Opening.textFirst_events.trans Opening.textFirst_events.symm

/-- Behind the comment is an element, so it does not keep texts apart. -/
lemma separated_iff (h : Inserted value content content') :
    Separated content'.events ↔ Separated content.events := by
  induction h with
  | here _ _ _ => exact and_iff_right fun htext => nomatch htext
  | leaf head tail ih =>
    rw [events, events, Separated, Separated, ih, tail.textFirst_events]
  | inside opening rest _ ih =>
    rw [events, events, Opening.separated_events_iff, Opening.separated_events_iff, ih]
  | behind opening content _ ih =>
    rw [events, events, Opening.separated_events_iff, Opening.separated_events_iff, ih]

end Inserted

lemma builds_iff : content.Builds (Document.ofForest (content.trees [])) ↔
    content.Fits ∧ content.Blank ∧ content.roots = 1 ∧ (∀ event ∈ content.events, event.Written) ∧
      Separated content.events := by
  constructor
  · intro h
    obtain ⟨hblank, hroots⟩ := h.blank_roots
    exact ⟨h.fits, hblank, hroots, h.written, h.separated⟩
  · rintro ⟨hfits, hblank, hroots, hwritten, hseparated⟩
    exact (Content.drafts hfits hblank hroots (.of_written hwritten) hseparated).builds hwritten

/-- A comment that cannot end too early makes no difference to what can be built. -/
theorem Inserted.builds_iff (h : Inserted value content content')
    (hends : EndsAt "-->".toList value) :
    content'.Builds (Document.ofForest (content'.trees [])) ↔
      content.Builds (Document.ofForest (content.trees [])) := by
  have hwritten : (Event.comment value).Written := .of_tag? hends rfl
  rw [Content.builds_iff, Content.builds_iff, h.fits_iff, h.blank_iff, h.roots_eq,
    h.forall_events_iff hwritten, h.separated_iff]

end Content

end Markup

namespace Document

variable {d : Document} {id top : NodeId}

/-- Whether the markup of a document is read as the trees that the document displays. -/
def ReadsBack (d : Document) : Prop :=
  ∃ d' trees, parse d.toMarkup = .ok d' ∧ d.Displays trees ∧ d'.Displays trees

/-- What is read back has a content that can be built and is written as it is read. -/
theorem readsBack_iff : d.ReadsBack ↔ ∃ content : Content, d.Displays (content.trees []) ∧
    content.Builds (ofForest (content.trees [])) ∧ (∀ event ∈ content.events, event.Sealed) ∧
      ∀ event ∈ content.events, event.Proper := by
  constructor
  · rintro ⟨d', trees, hparse, hshows, hshows'⟩
    obtain ⟨content, hbuilds, -⟩ := exists_content hparse
    obtain ⟨-, rfl⟩ := Tree.node.inj (hshows'.shows_root.unique hbuilds.displays.shows_root)
    have hchars : d.toChars = content.events.flatMap Event.markup := toChars_eq hshows
    rw [parse, toMarkup, String.toList_ofList, hchars] at hparse
    have hsealed := hbuilds.drafts.sealed_of_parseChars hparse (toChars_eq hshows')
    exact ⟨content, hshows, hbuilds.eq_ofForest ▸ hbuilds, hsealed,
      hbuilds.proper_of_parseChars hsealed hparse⟩
  · rintro ⟨content, hshows, hbuilds, hsealed, hproper⟩
    refine ⟨_, _, ?_, hshows, hbuilds.displays⟩
    rw [parse, toMarkup, String.toList_ofList, toChars_eq hshows]
    exact hbuilds.parseChars_eq hsealed hproper

/-- A document that has been read is read back if quotes pair up in every tag and nothing can be
taken for something else. -/
theorem readsBack_iff_of_parse {text : String} (h : parse text = .ok d) :
    d.ReadsBack ↔ ∀ x ∈ d.descendants root, d.SealedAt x ∧ d.ProperAt x := by
  have hboth : ∀ {content : Content}, d.Displays (content.trees []) →
      ((∀ x ∈ d.descendants root, d.SealedAt x ∧ d.ProperAt x) ↔
        (∀ event ∈ content.events, event.Sealed) ∧ ∀ event ∈ content.events, event.Proper) := by
    intro content hshows
    rw [← forall_sealedAt_iff hshows, ← forall_properAt_iff hshows]
    exact forall₂_and
  rw [readsBack_iff]
  constructor
  · rintro ⟨content, hshows, -, hevents⟩
    exact (hboth hshows).2 hevents
  · intro hall
    obtain ⟨content, hbuilds, -⟩ := exists_content h
    exact ⟨content, hbuilds.displays, hbuilds.eq_ofForest ▸ hbuilds,
      (hboth hbuilds.displays).1 hall⟩

section

variable (hd : d.WellFormed) (helement : d.isElement id = true) (hid : d.Below root id)
  (habove : ∀ y, d.Below y id → d.kind y = .document ∨ d.isElement y = true)

include hd helement hid habove

/-- What the whole document shows before and after a node has been put before an element. -/
lemma exists_inserted_root (kind : NodeKind) :
    ∃ (k : NodeKind) (trees trees' : List Tree), Tree.Inserted kind trees trees' ∧
      d.Shows root (.node k trees) ∧ (d.insertNew id kind).Shows root (.node k trees') ∧
        (d.insertNew id kind).WellFormed := by
  obtain ⟨top, hparent, -⟩ := Relation.TransGen.head'_iff.1 hid
  obtain ⟨⟨k, trees⟩, hshows⟩ := hd.exists_shows root
  obtain ⟨trees', hinserted, hshows'⟩ :=
    exists_inserted hd hparent kind helement habove hid hshows
  exact ⟨k, trees, trees', hinserted, hshows, hshows', (hd.insertNew_views kind hparent).1⟩

/-- A comment that is put before an element is put into the markup, which stays as it is before and
behind it. -/
theorem exists_toChars_insertNew (value : String) :
    ∃ front back, d.toChars = front ++ back ∧ (d.insertNew id (.comment value)).toChars =
      front ++ ("<!--".toList ++ value.toList ++ "-->".toList) ++ back := by
  obtain ⟨k, trees, trees', hinserted, hshows, hshows', -⟩ :=
    exists_inserted_root hd helement hid habove (.comment value)
  exact exists_toChars_inserted hshows hshows' hinserted

/-- A comment that cannot end too early, put before an element, makes no difference to whether a
document is read back. -/
theorem readsBack_insertNew_iff {value : String} (hends : EndsAt "-->".toList value.toList) :
    (d.insertNew id (.comment value)).ReadsBack ↔ d.ReadsBack := by
  obtain ⟨k, trees, trees', hinserted, hshows, hshows', hd'⟩ :=
    exists_inserted_root hd helement hid habove (.comment value)
  rw [← String.ofList_toList (s := value)] at hinserted
  have hsealed : (Event.comment value.toList).Sealed := Event.sealed_of_tag? rfl
  have hproper : (Event.comment value.toList).Proper := trivial
  rw [readsBack_iff, readsBack_iff]
  constructor
  · rintro ⟨content', hdisplays, hall⟩
    obtain ⟨rfl, rfl⟩ := Tree.node.inj (hshows'.unique hdisplays.shows_root)
    obtain ⟨content, h, rfl⟩ := hinserted.exists_content_without rfl
    rw [h.builds_iff hends, h.forall_events_iff hsealed, h.forall_events_iff hproper] at hall
    exact ⟨content, ⟨hd, hshows⟩, hall⟩
  · rintro ⟨content, hdisplays, hall⟩
    obtain ⟨rfl, rfl⟩ := Tree.node.inj (hshows.unique hdisplays.shows_root)
    obtain ⟨content', h, rfl⟩ := hinserted.exists_content rfl
    rw [← h.builds_iff hends, ← h.forall_events_iff hsealed, ← h.forall_events_iff hproper] at hall
    exact ⟨content', ⟨hd', hshows'⟩, hall⟩

end

end Document

end WordFields
