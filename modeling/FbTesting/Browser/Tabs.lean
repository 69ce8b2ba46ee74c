import FbTesting.Server.RunPython

/-!
# The tabs of the charts

Every event with a chart opens a panel and a tab for it.  The panels of one kind have
one id, and so have the elements that the charts are drawn into.  A lookup by id
finds the first of them.  So all time lines are drawn into the first panel of their
kind, below one another, the hour histogram is replaced in the first panel of its
own, and the later panels stay empty.  A tab is linked to its panel by the id as
well, so that every tab shows the first panel of its kind (`tabs_after_events`).
-/

namespace Browser

open Base Server

/-! ## The first element of a kind -/

section

variable {α : Type} {p q : α → Bool} {f : α → α}

/-- A change of the first element that is found. -/
def changeFirst (p : α → Bool) (f : α → α) : List α → List α
  | [] => []
  | a :: as => if p a then f a :: as else a :: changeFirst p f as

/-- It is the first of those that a filter for it keeps. -/
theorem filter_changeFirst (hf : ∀ a, p (f a) = p a) (as : List α) :
    (changeFirst p f as).filter p = (as.filter p).modifyHead f := by
  induction as with
  | nil => rfl
  | cons a as ih =>
      cases ha : p a with
      | true => simp [changeFirst, ha, hf]
      | false => simp [changeFirst, ha, ih]

/-- Those of other kinds stay. -/
theorem filter_changeFirst_of_ne (hpq : ∀ a, p a = true → q a = false)
    (hf : ∀ a, q (f a) = q a) (as : List α) : (changeFirst p f as).filter q = as.filter q := by
  induction as with
  | nil => rfl
  | cons a as ih =>
      cases ha : p a with
      | true => simp [changeFirst, ha, hf, hpq a ha]
      | false => simp [changeFirst, ha, List.filter_cons, ih]

theorem map_changeFirst {β : Type} {g : α → β} (hf : ∀ a, g (f a) = g a) (as : List α) :
    (changeFirst p f as).map g = as.map g := by
  induction as with
  | nil => rfl
  | cons a as ih =>
      cases ha : p a with
      | true => simp [changeFirst, ha, hf]
      | false => simp [changeFirst, ha, ih]

end

/-! ## Panels -/

/-- A panel of `#tabs`: its kind decides the ids of its elements. -/
structure Panel (α : Type) where
  chart : Chart
  /-- What is drawn in it, from the top. -/
  drawn : List α

/-- A panel in which nothing is drawn. -/
def Panel.new {α : Type} (c : Chart) : Panel α := ⟨c, []⟩

/-- A change of what is drawn in a panel. -/
def Panel.change {α : Type} (f : List α → List α) (p : Panel α) : Panel α := ⟨p.chart, f p.drawn⟩

/-- It is of this kind. -/
def Panel.isOf {α : Type} (c : Chart) (p : Panel α) : Bool := p.chart == c

/-- What `#tabs` holds: the links of the list, and the panels after the list. -/
structure Tabs (α : Type) where
  links : List Text
  panels : List (Panel α)

/-- The page before any chart. -/
def Tabs.empty (α : Type) : Tabs α := ⟨[], []⟩

/-- The id of a panel. -/
def panelId : Chart → Text
  | .timeline => "fragment-1".toList
  | .hourHistogram => "fragment-2".toList

section

variable {α : Type}

/-- The panel and the tab that an event adds. -/
def Tabs.openPanel (T : Tabs α) (c : Chart) : Tabs α where
  links := T.links ++ ['#' :: panelId c]
  panels := T.panels ++ [.new c]

/-- A change of the first panel of a kind. -/
def Tabs.select (T : Tabs α) (c : Chart) (f : List α → List α) : Tabs α where
  links := T.links
  panels := changeFirst (Panel.isOf c) (Panel.change f) T.panels

/-- `bar_init`: another chart is appended to the first `#bar`. -/
def Tabs.bar_init (T : Tabs α) (dataset : α) : Tabs α :=
  T.select .timeline fun drawn => drawn ++ [dataset]

/-- `radar_init`: the chart in the first `#chart` is removed, and another is appended. -/
def Tabs.radar_init (T : Tabs α) (dataset : α) : Tabs α :=
  T.select .hourHistogram fun drawn => drawn.drop 1 ++ [dataset]

/-- The handler of the event of a chart. -/
def Tabs.receive (T : Tabs α) : Chart × α → Tabs α
  | (.timeline, data) => (T.openPanel .timeline).bar_init data
  | (.hourHistogram, data) => (T.openPanel .hourHistogram).radar_init data

/-- The page after these events. -/
def Tabs.after (evs : List (Chart × α)) : Tabs α := evs.foldl Tabs.receive (.empty α)

/-- The panel that a tab shows: the first one with the id of its link. -/
def Tabs.shown (T : Tabs α) (i : Nat) : Option (Panel α) :=
  T.links[i]?.bind fun link => T.panels.find? fun p => '#' :: panelId p.chart == link

/-! ## What the page shows -/

/-- The data of the events of one kind. -/
def datasetsOf (c : Chart) (evs : List (Chart × α)) : List α :=
  (evs.filter fun e => e.1 == c).map Prod.snd

/-- Of the data of a kind, what is to be seen: every time line, and the last hour
histogram. -/
def visible (c : Chart) (data : List α) : List α :=
  match c with
  | .timeline => data
  | .hourHistogram => data.getLast?.toList

theorem mem_datasetsOf {c : Chart} {evs : List (Chart × α)} {x : α} :
    x ∈ datasetsOf c evs ↔ (c, x) ∈ evs := by
  simp [datasetsOf]

theorem mem_of_visible {c : Chart} {evs : List (Chart × α)} {x : α}
    (h : x ∈ visible c (datasetsOf c evs)) : (c, x) ∈ evs := by
  cases c with
  | timeline => exact mem_datasetsOf.mp h
  | hourHistogram =>
      have hlast := Option.mem_toList.mp h
      exact mem_datasetsOf.mp (List.mem_of_mem_getLast? hlast)

/-- Of the data of an event something is to be seen. -/
theorem visible_ne_nil {evs : List (Chart × α)} {e : Chart × α} (h : e ∈ evs) :
    visible e.1 (datasetsOf e.1 evs) ≠ [] := by
  have hmem : e.2 ∈ datasetsOf e.1 evs := mem_datasetsOf.mpr h
  cases hdata : datasetsOf e.1 evs with
  | nil =>
      rw [hdata] at hmem
      cases hmem
  | cons d data => cases e.1 <;> simp [visible]

/-- The panels of a kind: all is in the first. -/
def panelsOf (c : Chart) : List α → List (Panel α)
  | [] => []
  | d :: data => ⟨c, visible c (d :: data)⟩ :: data.map fun _ => .new c

theorem panelId_beq (c d : Chart) : ('#' :: panelId c == '#' :: panelId d) = (c == d) := by
  cases c <;> cases d <;> decide

theorem datasetsOf_concat (c : Chart) (evs : List (Chart × α)) (e : Chart × α) :
    datasetsOf c (evs ++ [e]) = datasetsOf c evs ++ if e.1 = c then [e.2] else [] := by
  rw [datasetsOf, List.filter_append, List.map_append]
  by_cases he : e.1 = c <;> simp [datasetsOf, he]

/-- What an event does to the panels of each kind. -/
theorem filter_select (T : Tabs α) (c d : Chart) (f : List α → List α) :
    ((T.openPanel c).select c f).panels.filter (Panel.isOf d) =
      if c = d then
        (T.panels.filter (Panel.isOf d) ++ [Panel.new d]).modifyHead (Panel.change f)
      else T.panels.filter (Panel.isOf d) := by
  by_cases hcd : c = d
  · subst hcd
    have hkept : ∀ p : Panel α, Panel.isOf c (Panel.change f p) = Panel.isOf c p := fun _ => rfl
    rw [if_pos rfl, Tabs.select, filter_changeFirst hkept, Tabs.openPanel, List.filter_append]
    simp [Panel.new, Panel.isOf]
  · have hother : ∀ p : Panel α, Panel.isOf c p = true → Panel.isOf d p = false := by
      intro p hp
      rw [Panel.isOf, beq_iff_eq] at hp
      simpa [Panel.isOf, hp] using hcd
    have hkept : ∀ p : Panel α, Panel.isOf d (Panel.change f p) = Panel.isOf d p := fun _ => rfl
    rw [if_neg hcd, Tabs.select, filter_changeFirst_of_ne hother hkept, Tabs.openPanel,
      List.filter_append]
    simp [Panel.new, Panel.isOf, hcd]

/-- The first panel of a kind after one more of its data, where `f` draws it. -/
theorem modifyHead_panelsOf {c : Chart} {x : α} {f : List α → List α}
    (hf : ∀ ds, f (visible c ds) = visible c (ds ++ [x])) (data : List α) :
    (panelsOf c data ++ [Panel.new c]).modifyHead (Panel.change f) =
      panelsOf c (data ++ [x]) := by
  cases data with
  | nil =>
      have hnil : visible c ([] : List α) = [] := by cases c <;> rfl
      have hfirst := hf []
      rw [hnil] at hfirst
      simp [panelsOf, Panel.new, Panel.change, hfirst]
  | cons d data => simp [panelsOf, Panel.change, hf (d :: data)]

/-- The panels of the kinds after one more event. -/
theorem filter_receive {T : Tabs α} {data : Chart → List α}
    (h : ∀ c, T.panels.filter (Panel.isOf c) = panelsOf c (data c)) (e : Chart × α)
    (d : Chart) :
    (T.receive e).panels.filter (Panel.isOf d) =
      panelsOf d (data d ++ if e.1 = d then [e.2] else []) := by
  obtain ⟨c, x⟩ := e
  have hdraw : ∃ f : List α → List α, T.receive (c, x) = (T.openPanel c).select c f ∧
      ∀ ds, f (visible c ds) = visible c (ds ++ [x]) := by
    cases c with
    | timeline => exact ⟨_, rfl, fun _ => rfl⟩
    | hourHistogram =>
        refine ⟨_, rfl, fun ds => ?_⟩
        have hdrop : ds.getLast?.toList.drop 1 = [] := by cases ds.getLast? <;> rfl
        simp [visible, hdrop]
  obtain ⟨f, hreceive, hf⟩ := hdraw
  rw [hreceive, filter_select, h d]
  by_cases hcd : c = d
  · subst hcd
    rw [if_pos rfl, if_pos rfl]
    exact modifyHead_panelsOf hf _
  · rw [if_neg hcd, if_neg hcd, List.append_nil]

theorem receive_links (T : Tabs α) (e : Chart × α) :
    (T.receive e).links = T.links ++ ['#' :: panelId e.1] ∧
      (T.receive e).panels.map Panel.chart = T.panels.map Panel.chart ++ [e.1] := by
  have hchart : ∀ (f : List α → List α) (p : Panel α), (Panel.change f p).chart = p.chart :=
    fun _ _ => rfl
  obtain ⟨c, x⟩ := e
  cases c <;>
    simp [Tabs.receive, Tabs.bar_init, Tabs.radar_init, Tabs.select, Tabs.openPanel, Panel.new,
      map_changeFirst, hchart]

/-- What the page holds after events. -/
theorem after_panels (evs : List (Chart × α)) :
    (Tabs.after evs).links = evs.map (fun e => '#' :: panelId e.1) ∧
      (Tabs.after evs).panels.map Panel.chart = evs.map Prod.fst ∧
      ∀ c, (Tabs.after evs).panels.filter (Panel.isOf c) = panelsOf c (datasetsOf c evs) := by
  induction evs using List.reverseRecOn with
  | nil => exact ⟨rfl, rfl, fun c => rfl⟩
  | append_singleton evs e ih =>
      obtain ⟨hlinks, hcharts, hpanels⟩ := ih
      have hlast : Tabs.after (evs ++ [e]) = (Tabs.after evs).receive e := by
        rw [Tabs.after, List.foldl_append]
        rfl
      obtain ⟨hlinks', hcharts'⟩ := receive_links (Tabs.after evs) e
      rw [hlast]
      refine ⟨?_, ?_, fun c => ?_⟩
      · rw [hlinks', hlinks, List.map_append, List.map_singleton]
      · rw [hcharts', hcharts, List.map_append, List.map_singleton]
      · rw [filter_receive hpanels e c, datasetsOf_concat]

/-- After any events with charts there is a tab and a panel for each, in order.  A
tab shows the first panel of its kind, in which all time lines are, or only the last
hour histogram.  All other panels are empty. -/
theorem tabs_after_events (evs : List (Chart × α)) :
    (Tabs.after evs).links.length = evs.length ∧
      (Tabs.after evs).panels.map Panel.chart = evs.map Prod.fst ∧
      (∀ i e, evs[i]? = some e →
        (Tabs.after evs).shown i = some ⟨e.1, visible e.1 (datasetsOf e.1 evs)⟩) ∧
      ∀ c, ∀ p ∈ ((Tabs.after evs).panels.filter (Panel.isOf c)).tail, p.drawn = [] := by
  obtain ⟨hlinks, hcharts, hpanels⟩ := after_panels evs
  refine ⟨?_, hcharts, fun i e he => ?_, fun c p hp => ?_⟩
  · rw [hlinks, List.length_map]
  · have hlink : (Tabs.after evs).links[i]? = some ('#' :: panelId e.1) := by
      rw [hlinks, List.getElem?_map, he]
      rfl
    have hmem : e.2 ∈ datasetsOf e.1 evs := mem_datasetsOf.mpr (List.mem_of_getElem? he)
    rw [Tabs.shown, hlink, Option.bind_some]
    simp only [panelId_beq]
    show (Tabs.after evs).panels.find? (Panel.isOf e.1) = _
    rw [← List.head?_filter, hpanels]
    cases hdata : datasetsOf e.1 evs with
    | nil =>
        rw [hdata] at hmem
        cases hmem
    | cons d data => rfl
  · rw [hpanels] at hp
    cases hdata : datasetsOf c evs with
    | nil =>
        rw [hdata] at hp
        cases hp
    | cons d data =>
        rw [hdata] at hp
        obtain ⟨_, _, rfl⟩ := List.mem_map.mp hp
        rfl

end

end Browser
