import GradualTypes.Descriptor
import GradualTypes.Proofs.OutlineSets

/-!
Independence from history. A descriptor has an outline of its own, which is computed without a
store. In a store in which no tuple was promoted the type that is built for a descriptor has that
outline. So its text, its order and its equality to other such types are the same in all stores,
whatever was made before or in between. Building fails only if the table of names is full.
-/

namespace GradualTypes

namespace Descriptor

mutual

def outline : Descriptor → Outline
  | top => .top
  | nil => .nil
  | wildcard => ⟨.wildcard, "", []⟩
  | nominal text => .nominal text
  | symbol text => ⟨.symbol, text, []⟩
  | var text => ⟨.var, text, []⟩
  | generic base params => ⟨.generic, "", .nominal base :: outlines params⟩
  | array element => ⟨.generic, "", [.nominal CoreClass.array.text, outline element]⟩
  | annotated label inner => ⟨.annotated, label, [outline inner]⟩
  | union types => .make .union (outlines types)
  | intersection types => .make .intersection (outlines types)
  | tuple params => ⟨.tuple, "", outlines params⟩

def outlines : List Descriptor → List Outline
  | [] => []
  | d :: ds => outline d :: outlines ds

end

end Descriptor

namespace Store

variable {s t : Store} {h : Handle} {kind : SetKind} {types members : List Handle}

section Building

/-- A handle is a type of the store, and it shows an outline as long as no tuple is promoted. -/
def Shows (s : Store) (h : Handle) (o : Outline) : Prop :=
  s.contains h ∧ (s.AllFixed → s.outline h = o)

variable {o : Outline} {os : List Outline} {node : Node} {name : Name} {text : String}

theorem Evolves.shows (hst : Evolves s t) (hs : s.WellFormed) (hshows : s.Shows h o) :
    t.Shows h o := by
  have hpersists := hst.persists hs
  refine ⟨hpersists.contains hshows.1, fun hfixed => ?_⟩
  rw [hpersists.outline_eq hs hshows.1]
  exact hshows.2 (hpersists.allFixed hs hfixed)

private theorem Evolves.shows_all (hst : Evolves s t) (hs : s.WellFormed)
    (hshows : List.Forall₂ s.Shows types os) : List.Forall₂ t.Shows types os :=
  hshows.imp fun _ _ => hst.shows hs

private theorem contains_of_shows (hshows : List.Forall₂ s.Shows types os) :
    ∀ x ∈ types, s.contains x := by
  intro x hx
  obtain ⟨o, -, hxo⟩ := exists_mem_of_forall₂ hshows hx
  exact hxo.1

private theorem map_outline_of_shows (hshows : List.Forall₂ s.Shows types os)
    (hfixed : s.AllFixed) : types.map s.outline = os := by
  rw [← List.forall₂_eq_eq_eq, List.forall₂_map_left_iff]
  exact hshows.imp fun _ _ hxo => hxo.2 hfixed

/-- A type with a given node shows the outline of that node. -/
private theorem shows_of_slot {traits : Traits} (hs : s.WellFormed)
    (hslot : s.slot? h = some ⟨node, traits⟩) (hlabel : s.label node = text)
    (hrefs : List.Forall₂ s.Shows node.refs os) :
    s.Shows h ⟨node.kind, text, os⟩ := by
  refine ⟨contains_of_slot hslot, fun hfixed => ?_⟩
  rw [outline_step hs.linked hs.named hslot, hlabel, map_outline_of_shows hrefs hfixed]

theorem label_of_text (hname : node.name? = some name) (htext : s.names.text? name = some text) :
    s.label node = text := by
  simp [label, hname, htext]

/-- A set that is made shows what is made of the outlines. -/
theorem WellFormed.make_shows (hs : s.WellFormed) (hd : s.Distinct) (kind : SetKind)
    (htypes : List.Forall₂ s.Shows types os) :
    Returns (kind.make types) s fun h t => Evolves s t ∧ t.Shows h (.make kind os) := by
  have hvalid := contains_of_shows htypes
  rcases hs.make_run hvalid kind with
    ⟨⟨hkind, htop⟩, hrun⟩ | ⟨htop, members, h, t, harranged, hrun, hmakes⟩
  · refine ⟨.top, s, hrun, .refl, hs.linked.contains_top, fun hfixed => ?_⟩
    have hself := (hs.outline_special_iff hs.linked.contains_top).1.mpr rfl
    have hmem : Outline.top ∈ os := by
      rw [← map_outline_of_shows htypes hfixed, ← hself]
      exact List.mem_map_of_mem htop
    rw [Outline.make, if_pos ⟨hkind, hmem⟩, hself]
  · have hst := hmakes.grows
    have ht := hst.wellFormed hs
    have hvalid' : ∀ p ∈ types, t.contains p := fun p hp => hst.contains (hvalid p hp)
    have harranged' : t.Arranged (t.flat kind types) members := by
      rw [hst.flat_eq hvalid]
      exact hst.arranged hs (hs.contains_of_flat hvalid) harranged
    have hmembers : ∀ x ∈ members, t.contains x := fun x hx =>
      ht.contains_of_flat hvalid' x (harranged'.subset hx)
    have hh := ht.contains_of_standsFor hmembers (ht.standsFor_of_lookup hmembers hmakes.found)
    refine ⟨h, t, hrun, hst.evolves, hh, fun hfixed => ?_⟩
    have hd' := hst.distinct hs hd
    have hos := map_outline_of_shows (hst.evolves.shows_all hs htypes) hfixed
    have houtlines := Arranged.map_outline ht hd' hfixed hvalid' harranged'
    have hnot : ¬ (kind = .union ∧ Outline.top ∈ os) := by
      rintro ⟨hkind, hmem⟩
      rw [← hos, List.mem_map] at hmem
      obtain ⟨x, hx, hself⟩ := hmem
      rw [(ht.outline_special_iff (hvalid' x hx)).1.mp hself] at hx
      exact htop hkind hx
    rw [Outline.make, if_neg hnot, ← hos, ← houtlines]
    apply ht.outline_of_lookup hd' hfixed hmembers _ hmakes.found
    rw [houtlines]
    exact Outline.ascending_gather kind _

/-- A type that was formed shows the outline of its node. -/
theorem Formed.shows (hformed : Formed s node h t) (hs : s.WellFormed)
    (hlabel : s.label node = text) (hrefs : List.Forall₂ s.Shows node.refs os) :
    Evolves s t ∧ t.Shows h ⟨node.kind, text, os⟩ := by
  have hst := hformed.grows
  obtain ⟨traits, hslot⟩ := hformed.slot
  refine ⟨hst.evolves, shows_of_slot (hst.wellFormed hs) hslot ?_ (hst.evolves.shows_all hs hrefs)⟩
  rw [label, hst.names_eq]
  exact hlabel

end Building

end Store

/-- The operation gives a result as described, or it fails because the table of names is full. -/
def Yields {α : Type} (op : StoreM α) (s : Store) (post : α → Store → Prop) : Prop :=
  Returns op s post ∨ ∃ shard count t, op s = .error (.shardFull shard count) t

namespace Yields

variable {α β : Type} {op : StoreM α} {f : α → StoreM β} {s : Store} {post : α → Store → Prop}
  {final : β → Store → Prop}

theorem bind (h : Yields op s post) (hf : ∀ answer t, post answer t → Yields (f answer) t final) :
    Yields (op >>= f) s final := by
  rcases h with ⟨answer, t, hrun, hpost⟩ | ⟨shard, count, t, hrun⟩
  · rw [Yields, Returns, bind_run hrun]
    exact hf answer t hpost
  · exact .inr ⟨shard, count, t, bind_run_error hrun⟩

theorem mono {weaker : α → Store → Prop} (h : Yields op s post)
    (hpost : ∀ answer t, post answer t → weaker answer t) : Yields op s weaker :=
  h.imp_left fun hreturns => hreturns.mono hpost

theorem with_run (h : Yields op s post) :
    Yields op s fun answer t => op s = .ok answer t ∧ post answer t :=
  h.imp_left fun ⟨answer, t, hrun, hpost⟩ => ⟨answer, t, hrun, hrun, hpost⟩

/-- What an operation does after other changes counts from the store before them. -/
theorem after {t : Store} (hst : Store.Evolves s t)
    (h : Yields op t fun answer u => Store.Evolves t u ∧ post answer u) :
    Yields op t fun answer u => Store.Evolves s u ∧ post answer u :=
  h.mono fun _ _ hpost => ⟨hst.trans hpost.1, hpost.2⟩

theorem of_run {answer : α} {t : Store} (h : Yields op s post) (hrun : op s = .ok answer t) :
    post answer t := by
  rcases h with hreturns | ⟨shard, count, u, herror⟩
  · exact hreturns.of_run hrun
  · rw [hrun] at herror
    cases herror

/-- Entering a text fails only if there is no room for it. -/
theorem intern_bind {text : String} {f : Name → StoreM β}
    (hf : ∀ name names, s.names.intern text = .ok (name, names) →
      Yields (f name) { s with names } final) : Yields (Store.intern text >>= f) s final := by
  cases hintern : s.names.intern text with
  | ok result =>
    obtain ⟨name, names⟩ := result
    rw [Yields, Returns, bind_run (intern_run hintern)]
    exact hf name names hintern
  | error e =>
    have hrun := intern_run_error hintern
    rw [(NameTable.intern_error hintern).1] at hrun
    exact .inr ⟨_, _, s, bind_run_error hrun⟩

end Yields

namespace Store

section Constructors

variable {s t : Store} {h base : Handle} {types : List Handle} {o : Outline} {os : List Outline}

/-- A named type without components shows its name. -/
private theorem named_yields {f : Name → StoreM Handle} {node : Name → Node} (text : String)
    (hf : ∀ {s : Store} {name : Name}, s.WellFormed → (∃ text, s.names.text? name = some text) →
      Returns (f name) s (Formed s (node name)))
    (hname : ∀ name, (node name).name? = some name) (hrefs : ∀ name, (node name).refs = [])
    (hs : s.WellFormed) :
    Yields (intern text >>= f) s fun h t => Evolves s t ∧
      ∃ name, t.node h = .ok (node name) ∧ t.Shows h ⟨(node name).kind, text, []⟩ := by
  refine .intern_bind fun name names hintern => .inl ?_
  have htext : names.text? name = some text := hs.orderly.text?_of_intern hintern
  have hs' := hs.intern hintern
  refine (hf hs' ⟨text, htext⟩).mono fun h t hformed => ?_
  obtain ⟨hst, hshows⟩ := hformed.shows hs' (label_of_text (hname name) htext)
    (by rw [hrefs]; exact .nil)
  obtain ⟨traits, hslot⟩ := hformed.slot
  exact ⟨.head (.intern hintern) hst, name, node_of_slot hslot, hshows⟩

variable (hs : s.WellFormed)
include hs

private theorem generic_shows {name : Name} {text : String}
    (hbase : s.node base = .ok (.nominal name))
    (hshows : s.Shows base (.nominal text)) (htypes : List.Forall₂ s.Shows types os) :
    Returns (generic base types) s fun h t => Evolves s t ∧
      t.Shows h ⟨.generic, "", .nominal text :: os⟩ := by
  have hvalid := contains_of_shows htypes
  refine .ask_bind (checkBase_of_nominal hbase)
    (.ask_bind (checkParamsFrom_eq_ok_iff.mpr hvalid) ?_)
  refine (formGeneric_returns hs ⟨name, hbase⟩ hvalid).mono fun h t hformed => ?_
  exact hformed.shows hs rfl (.cons hshows htypes)

private theorem array_shows (hclass : s.Shows .arrayClass (.nominal CoreClass.array.text))
    (hshows : s.Shows h o) :
    Returns (array h) s fun h t => Evolves s t ∧
      t.Shows h ⟨.generic, "", [.nominal CoreClass.array.text, o]⟩ := by
  refine .ask_bind (checkParam_eq_ok_iff.mpr hshows.1) ?_
  refine (formArray_returns hs hshows.1).mono fun h t hformed => ?_
  exact hformed.shows hs rfl (.cons hclass (.cons hshows .nil))

private theorem annotated_shows (text : String) (hshows : s.Shows h o) :
    Yields (annotated text h) s fun h t => Evolves s t ∧ t.Shows h ⟨.annotated, text, [o]⟩ := by
  have hcheck : s.checkParam 0 h = .ok () := checkParam_eq_ok_iff.mpr hshows.1
  rw [annotated, Yields, Returns, bind_run (ask_run hcheck)]
  refine Yields.intern_bind fun name names hintern => .inl ?_
  have htext : names.text? name = some text := hs.orderly.text?_of_intern hintern
  have hs' := hs.intern hintern
  have hst : Evolves s { s with names } := .single (.intern hintern)
  have hshows' := hst.shows hs hshows
  refine (formAnnotated_returns hs' ⟨text, htext⟩ hshows'.1).mono fun h t hformed => ?_
  obtain ⟨hgrown, hresult⟩ := hformed.shows hs' (label_of_text rfl htext) (.cons hshows' .nil)
  exact ⟨hst.trans hgrown, hresult⟩

private theorem tuple_shows (htypes : List.Forall₂ s.Shows types os) :
    Returns (tuple types) s fun h t => Evolves s t ∧ t.Shows h ⟨.tuple, "", os⟩ := by
  have hvalid := contains_of_shows htypes
  refine .ask_bind (checkParamsFrom_eq_ok_iff.mpr hvalid) ?_
  refine (formTuple_returns hs hvalid).mono fun h t hpost => ?_
  obtain ⟨-, digest, hformed⟩ := hpost
  exact hformed.shows hs rfl htypes

end Constructors

/-- The class of arrays shows its name in every store. -/
private theorem Evolves.shows_arrayClass {hash : WordHash} {s : Store}
    (hs : Evolves (.initial hash) s) : s.Shows .arrayClass (.nominal CoreClass.array.text) := by
  apply hs.shows wellFormed_initial
  have hslot : (initial hash).slot? .arrayClass =
      some ⟨.nominal CoreClass.array.name, .none⟩ := rfl
  exact shows_of_slot wellFormed_initial hslot
    (label_of_text rfl (NameTable.text?_core .array)) .nil

end Store

namespace Descriptor

open Store

mutual

/-- Building a descriptor returns a type that shows its outline, unless a name finds no room. -/
theorem build_yields (d : Descriptor) {hash : WordHash} {s : Store}
    (hs : Evolves (.initial hash) s) :
    Yields d.build s fun h t => Evolves s t ∧ t.Shows h d.outline := by
  have hwf := hs.wellFormed wellFormed_initial
  have hd := hs.distinct wellFormed_initial distinct_initial
  match d with
  | top =>
    exact .inl (.pure ⟨.refl, hwf.linked.contains_top, fun _ =>
      (hwf.outline_special_iff hwf.linked.contains_top).1.mpr rfl⟩)
  | nil =>
    exact .inl (.pure ⟨.refl, hwf.linked.contains_nil, fun _ =>
      (hwf.outline_special_iff hwf.linked.contains_nil).2.mpr rfl⟩)
  | wildcard =>
    have hslot : s.slot? .wildcard = some ⟨.wildcard, .none⟩ :=
      hwf.linked.builtin .wildcard (by decide)
    exact .inl (.pure ⟨.refl, shows_of_slot hwf hslot rfl .nil⟩)
  | nominal text =>
    apply (named_yields text nominalNamed_returns (fun _ => rfl) (fun _ => rfl) hwf).mono
    rintro h t ⟨hst, name, -, hshows⟩
    exact ⟨hst, hshows⟩
  | symbol text =>
    apply (named_yields text symbolNamed_returns (fun _ => rfl) (fun _ => rfl) hwf).mono
    rintro h t ⟨hst, name, -, hshows⟩
    exact ⟨hst, hshows⟩
  | var text =>
    apply (named_yields text varNamed_returns (fun _ => rfl) (fun _ => rfl) hwf).mono
    rintro h t ⟨hst, name, -, hshows⟩
    exact ⟨hst, hshows⟩
  | generic base params =>
    refine (named_yields base nominalNamed_returns (fun _ => rfl) (fun _ => rfl) hwf).bind ?_
    rintro head t ⟨hst, name, hname, hclass⟩
    refine (buildAll_yields params (hs.trans hst)).bind ?_
    rintro types u ⟨htu, hshows⟩
    have ht := hst.wellFormed hwf
    have hclass' := (htu.persists ht).node_eq hname
    have hu := htu.wellFormed ht
    refine .after (hst.trans htu) (.inl ?_)
    exact generic_shows hu hclass' (htu.shows ht hclass) hshows
  | array element =>
    refine (build_yields element hs).bind fun h t ⟨hst, hshows⟩ => ?_
    refine .after hst (.inl ?_)
    exact array_shows (hst.wellFormed hwf) (hs.trans hst).shows_arrayClass hshows
  | annotated label inner =>
    refine (build_yields inner hs).bind fun h t ⟨hst, hshows⟩ => ?_
    exact .after hst (annotated_shows (hst.wellFormed hwf) label hshows)
  | union types =>
    refine (buildAll_yields types hs).bind fun handles t ⟨hst, hshows⟩ => ?_
    refine .after hst (.inl ?_)
    exact (hst.wellFormed hwf).make_shows (hst.distinct hwf hd) .union hshows
  | intersection types =>
    refine (buildAll_yields types hs).bind fun handles t ⟨hst, hshows⟩ => ?_
    refine .after hst (.inl ?_)
    exact (hst.wellFormed hwf).make_shows (hst.distinct hwf hd) .intersection hshows
  | tuple params =>
    refine (buildAll_yields params hs).bind fun handles t ⟨hst, hshows⟩ => ?_
    exact .after hst (.inl (tuple_shows (hst.wellFormed hwf) hshows))

private theorem buildAll_yields (ds : List Descriptor) {hash : WordHash} {s : Store}
    (hs : Evolves (.initial hash) s) :
    Yields (buildAll ds) s fun types t => Evolves s t ∧
      List.Forall₂ t.Shows types (outlines ds) := by
  match ds with
  | [] => exact .inl (.pure ⟨.refl, .nil⟩)
  | d :: ds =>
    refine (build_yields d hs).bind fun h t ⟨hst, hshows⟩ => ?_
    refine (buildAll_yields ds (hs.trans hst)).bind fun types u ⟨htu, hall⟩ => ?_
    have ht := (hs.trans hst).wellFormed wellFormed_initial
    exact .inl (.pure ⟨hst.trans htu, .cons (htu.shows ht hshows) hall⟩)

end

abbrev Forming : Store → Store → Prop :=
  Leads fun op => op.isDeclaration = false ∧ op.isSearch = false

private theorem leads_of_run {α : Type} {s t : Store} {make : StoreM α} {answer : α}
    (op : Operation)
    (hop : op.run = discard make) (hforms : op.isDeclaration = false ∧ op.isSearch = false)
    (hgrounded : op.IsGrounded s) (hrun : make s = .ok answer t) : Forming s t := by
  rw [← Operation.apply_of_run _ hop hrun]
  exact .step op .refl hforms hgrounded

mutual

/-- Building is done by operations that form types. -/
theorem build_leads (d : Descriptor) {s t : Store} {h : Handle} (hrun : d.build s = .ok h t) :
    Forming s t := by
  match d with
  | top | nil | wildcard =>
    cases hrun
    exact .refl
  | nominal text => exact leads_of_run (.nominal text) rfl ⟨rfl, rfl⟩ trivial hrun
  | symbol text => exact leads_of_run (.symbol text) rfl ⟨rfl, rfl⟩ trivial hrun
  | var text => exact leads_of_run (.var text) rfl ⟨rfl, rfl⟩ trivial hrun
  | generic base params =>
    obtain ⟨head, u, hbase, hrest⟩ := bind_run_eq_ok_iff.mp hrun
    obtain ⟨types, v, hparams, hlast⟩ := bind_run_eq_ok_iff.mp hrest
    have hu := leads_of_run (.nominal base) rfl ⟨rfl, rfl⟩ trivial hbase
    have hv := buildAll_leads params hparams
    exact (hu.trans hv).trans (leads_of_run (.generic head types) rfl ⟨rfl, rfl⟩ trivial hlast)
  | array element =>
    obtain ⟨x, u, helement, hlast⟩ := bind_run_eq_ok_iff.mp hrun
    have hu := build_leads element helement
    exact hu.trans (leads_of_run (.array x) rfl ⟨rfl, rfl⟩ trivial hlast)
  | annotated label inner =>
    obtain ⟨x, u, hinner, hlast⟩ := bind_run_eq_ok_iff.mp hrun
    have hu := build_leads inner hinner
    exact hu.trans (leads_of_run (.annotated label x) rfl ⟨rfl, rfl⟩ trivial hlast)
  | union ds =>
    obtain ⟨types, u, hparts, hlast⟩ := bind_run_eq_ok_iff.mp hrun
    have hu := buildAll_leads ds hparts
    exact hu.trans (leads_of_run (.union types) rfl ⟨rfl, rfl⟩ trivial hlast)
  | intersection ds =>
    obtain ⟨types, u, hparts, hlast⟩ := bind_run_eq_ok_iff.mp hrun
    have hu := buildAll_leads ds hparts
    exact hu.trans (leads_of_run (.intersection types) rfl ⟨rfl, rfl⟩ trivial hlast)
  | tuple params =>
    obtain ⟨types, u, hparts, hlast⟩ := bind_run_eq_ok_iff.mp hrun
    have hu := buildAll_leads params hparts
    exact hu.trans (leads_of_run (.tuple types) rfl ⟨rfl, rfl⟩ trivial hlast)

private theorem buildAll_leads (ds : List Descriptor) {s t : Store} {types : List Handle}
    (hrun : buildAll ds s = .ok types t) : Forming s t := by
  match ds with
  | [] =>
    cases hrun
    exact .refl
  | d :: ds =>
    obtain ⟨h, u, hfirst, hrest⟩ := bind_run_eq_ok_iff.mp hrun
    obtain ⟨rest, v, hsecond, hpure⟩ := bind_run_eq_ok_iff.mp hrest
    cases hpure
    exact (build_leads d hfirst).trans (buildAll_leads ds hsecond)

end

/-- So it leads from reachable stores to reachable ones. -/
theorem build_reachable (d : Descriptor) {s t : Store} {h : Handle} (hs : Reachable s)
    (hrun : d.build s = .ok h t) : Reachable t :=
  (d.build_leads hrun).reachable hs

/-- A handle is what the building of a descriptor returned at some time in the history of a
store. -/
def Built (d : Descriptor) (s : Store) (h : Handle) : Prop :=
  ∃ before after, Reachable before ∧ d.build before = .ok h after ∧ Evolves after s

variable {d e : Descriptor} {s : Store} {h k : Handle}

theorem Built.shows (hbuilt : d.Built s h) :
    (∃ hash, Evolves (.initial hash) s) ∧ s.Shows h d.outline := by
  obtain ⟨before, after, hbefore, hrun, hlater⟩ := hbuilt
  obtain ⟨hash, hinitial⟩ := hbefore.evolves
  obtain ⟨hevolves, hshows⟩ := (d.build_yields hinitial).of_run hrun
  have hafter := hinitial.trans hevolves
  exact ⟨⟨hash, hafter.trans hlater⟩,
    hlater.shows (hafter.wellFormed wellFormed_initial) hshows⟩

/-- As long as no tuple is promoted, questions about types that were built are answered by the
outlines of their descriptors. -/
theorem Built.answers (hfixed : s.AllFixed) (hd : d.Built s h) (he : e.Built s k) :
    s.render h = .ok d.outline.text ∧ s.order h k = .ok (d.outline.order e.outline) ∧
      s.equal h k = .ok (decide (d.outline = e.outline)) := by
  obtain ⟨⟨_, hevolves⟩, hh, houtline⟩ := hd.shows
  obtain ⟨-, hk, houtline'⟩ := he.shows
  have hwf := hevolves.wellFormed wellFormed_initial
  have hdistinct := hevolves.distinct wellFormed_initial distinct_initial
  have hfirst := hfixed.unpromoted hwf hh
  have hsecond := hfixed.unpromoted hwf hk
  rw [← houtline hfixed, ← houtline' hfixed]
  refine ⟨hwf.render_eq hh hfirst, ?_, ?_⟩
  · rw [order_eq hwf.linked hwf.named hh hk, place_eq_order]
  · have hanswer : Decides (s.equal h k) (s.Same h k) :=
      .self (equal_answered hwf.linked hwf.acyclic hh hk)
    exact (hanswer.congr (hwf.same_iff_outline hdistinct hh hk hfirst hsecond)).eq_decide

/-- What is built does not depend on history: in any two stores that operations lead to and in which
no tuple is promoted, types that were built for a descriptor are written alike, and types that were
built for two descriptors compare alike, both by the order and by equality. -/
theorem history_independent {s' : Store} {h' k' : Handle} (hfixed : s.AllFixed)
    (hfixed' : s'.AllFixed) (hd : d.Built s h) (he : e.Built s k) (hd' : d.Built s' h')
    (he' : e.Built s' k') :
    (∃ text, s.render h = .ok text ∧ s'.render h' = .ok text) ∧
      (∃ found, s.order h k = .ok found ∧ s'.order h' k' = .ok found) ∧
      ∃ answer, s.equal h k = .ok answer ∧ s'.equal h' k' = .ok answer := by
  obtain ⟨hrender, horder, hequal⟩ := Built.answers hfixed hd he
  obtain ⟨hrender', horder', hequal'⟩ := Built.answers hfixed' hd' he'
  exact ⟨⟨_, hrender, hrender'⟩, ⟨_, horder, horder'⟩, ⟨_, hequal, hequal'⟩⟩

def buildIn (d : Descriptor) (s : Store) : Store :=
  match d.build s with
  | .ok _ after => after
  | .error _ after => after

theorem build_eq_of_run' (hrun : d.build.run' s = some h) : d.build s = .ok h (d.buildIn s) := by
  obtain ⟨t, ht⟩ := exists_run_of_run' hrun
  rw [buildIn, ht]

def plainPair : Descriptor :=
  .tuple [.nominal "Integer", .union [.array (.nominal "String"), .nil, .var "T"]]

/-- The same pair in other words: the union is nested, the other way round and has a repetition. -/
def nestedPair : Descriptor :=
  .tuple [.nominal "Integer",
    .union [.var "T", .union [.var "T", .generic "Array" [.nominal "String"]]]]

/-- The two pairs are built in this order in one store, and in the other order in a store that holds
more. Their handles differ, but they are written alike, and in both stores they are equal. -/
theorem pairs_history_independent :
    let first := plainPair.buildIn .initial
    let s := nestedPair.buildIn first
    let other := (Operation.nominal "String").apply ((Operation.symbol "Float").apply .initial)
    let second := nestedPair.buildIn other
    let s' := plainPair.buildIn second
    (s.AllFixed ∧ plainPair.Built s ⟨10⟩ ∧ nestedPair.Built s ⟨11⟩) ∧
      (s'.AllFixed ∧ plainPair.Built s' ⟨12⟩ ∧ nestedPair.Built s' ⟨11⟩) ∧
      (s.render ⟨10⟩ = .ok "[Integer, (:T or Array<String>)]" ∧ s'.render ⟨12⟩ = s.render ⟨10⟩) ∧
      (s.order ⟨10⟩ ⟨11⟩ = .ok .eq ∧ s'.order ⟨12⟩ ⟨11⟩ = .ok .eq) ∧
      s.equal ⟨10⟩ ⟨11⟩ = .ok true ∧ s'.equal ⟨12⟩ ⟨11⟩ = .ok true := by
  intro first s other second s'
  have hother : Reachable other :=
    .step (.nominal "String") (.step (.symbol "Float") (.initial _) trivial) trivial
  have hplain : plainPair.build .initial = .ok ⟨10⟩ first := build_eq_of_run' (by decide +kernel)
  have hnested : nestedPair.build first = .ok ⟨11⟩ s := build_eq_of_run' (by decide +kernel)
  have hnested' : nestedPair.build other = .ok ⟨11⟩ second := build_eq_of_run' (by decide +kernel)
  have hplain' : plainPair.build second = .ok ⟨12⟩ s' := build_eq_of_run' (by decide +kernel)
  have hfirst := plainPair.build_reachable (.initial _) hplain
  have hsecond := nestedPair.build_reachable hother hnested'
  obtain ⟨_, hevolves⟩ := hfirst.evolves
  obtain ⟨_, hevolves'⟩ := hsecond.evolves
  have hd : plainPair.Built s ⟨10⟩ :=
    ⟨_, first, .initial _, hplain, ((nestedPair.build_yields hevolves).of_run hnested).1⟩
  have he : nestedPair.Built s ⟨11⟩ := ⟨first, s, hfirst, hnested, .refl⟩
  have hd' : plainPair.Built s' ⟨12⟩ := ⟨second, s', hsecond, hplain', .refl⟩
  have he' : nestedPair.Built s' ⟨11⟩ :=
    ⟨other, second, hother, hnested', ((plainPair.build_yields hevolves').of_run hplain').1⟩
  have hfixed : s.AllFixed := allFixed_iff.mpr (by decide +kernel)
  have hfixed' : s'.AllFixed := allFixed_iff.mpr (by decide +kernel)
  have htext : s.render ⟨10⟩ = .ok "[Integer, (:T or Array<String>)]" := by decide +kernel
  have horder : s.order ⟨10⟩ ⟨11⟩ = .ok .eq := by decide +kernel
  have hequal : s.equal ⟨10⟩ ⟨11⟩ = .ok true := by decide +kernel
  obtain ⟨⟨text, hrender, hrender'⟩, ⟨found, hfound, hfound'⟩, answer, hanswer, hanswer'⟩ :=
    history_independent hfixed hfixed' hd he hd' he'
  rw [horder] at hfound
  rw [hequal] at hanswer
  cases hfound
  cases hanswer
  exact ⟨⟨hfixed, hd, he⟩, ⟨hfixed', hd', he'⟩, ⟨htext, hrender'.trans hrender.symm⟩,
    ⟨horder, hfound'⟩, hequal, hanswer'⟩

end Descriptor

end GradualTypes
