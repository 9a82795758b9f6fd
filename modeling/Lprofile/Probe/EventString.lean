import Lprofile.Probe.Evlist

/-!
# The event list in words

`prof_evlist__add_from_str` walks a copy of its text with two cursors. The plain
reading of the text is its split at the commas, one event for each field whose
part before the first `:` is a known name. `Adds` compares the two; the walk
differs from the split exactly where the text ends in a comma, because the
`break` leaves `pcur` at the field before that comma and the length test then
adds this field once more.

`len` is an `int` in the source; the text is an argument of the command line,
far shorter than that.
-/

namespace Lprofile.Probe

open Lprofile.Lib

/-! ## The plain reading -/

/-- The part of a field before its first `:`. -/
def eventName (field : CStr) : CStr := field.takeWhile (· != ':')

/-- The rows of `pmuList` that the fields name, in the order of the fields. -/
def knownEvents (fields : List CStr) : List ProfPmu :=
  fields.filterMap fun f => profPmuFind (eventName f)

/-- The new list is the old one and one selector for each known field; `n` is their number. -/
structure Adds (evlist : ProfEvlist) (fields : List CStr) (n : Int) (evlist' : ProfEvlist) :
    Prop where
  count : n = ((knownEvents fields).length : Int)
  entries : ∃ added, evlist'.entries = evlist.entries ++ added ∧
    added.map (fun e => (e.attr.type, e.attr.config)) =
      (knownEvents fields).map (fun pmu => (pmu.type, pmu.config))

/-- The text ends in a comma and the field before that comma names a known event. -/
def repeatsLast (s : CStr) : Bool :=
  match (s.splitOn ',').reverse with
  | [] :: last :: _ => (profPmuFind (eventName last)).isSome
  | _ => false

@[simp] theorem knownEvents_append (fs gs : List CStr) :
    knownEvents (fs ++ gs) = knownEvents fs ++ knownEvents gs :=
  List.filterMap_append

theorem knownEvents_single (f : CStr) : knownEvents [f] = (profPmuFind (eventName f)).toList := by
  unfold knownEvents
  rcases h : profPmuFind (eventName f) with _ | pmu <;> simp [h]

theorem Adds.nil (evlist : ProfEvlist) : Adds evlist [] 0 evlist :=
  ⟨rfl, [], by simp, rfl⟩

theorem Adds.append {l l' l'' : ProfEvlist} {fs gs : List CStr} {m n : Int}
    (h : Adds l fs m l') (h' : Adds l' gs n l'') : Adds l (fs ++ gs) (m + n) l'' := by
  obtain ⟨a, ha, hta⟩ := h.entries
  obtain ⟨b, hb, htb⟩ := h'.entries
  refine ⟨?_, a ++ b, ?_, ?_⟩
  · rw [h.count, h'.count, knownEvents_append, List.length_append, Int.natCast_add]
  · rw [hb, ha, List.append_assoc]
  · rw [knownEvents_append, List.map_append, List.map_append, hta, htb]

/-! ## One field -/

theorem eventName_of_strchr_none {f : CStr} (h : strchr f ':' = none) : eventName f = f := by
  have hno : ':' ∉ f := List.idxOf?_eq_none_iff.1 h
  have hall : ∀ c ∈ f, (c != ':') = true := by
    intro c hc
    rw [bne_iff_ne]
    rintro rfl
    exact hno hc
  have htake : (f ++ []).takeWhile (· != ':') = f ++ [].takeWhile (· != ':') :=
    List.takeWhile_append_of_pos hall
  rwa [List.append_nil, List.takeWhile_nil, List.append_nil] at htake

theorem eventName_of_strchr_some {f : CStr} {k : Nat} (h : strchr f ':' = some k) :
    eventName f = f.take k := by
  obtain ⟨hno, hf⟩ := strchr_eq_some h
  have hall : ∀ c ∈ f.take k, (c != ':') = true := by
    intro c hc
    rw [bne_iff_ne]
    rintro rfl
    exact hno hc
  unfold eventName
  conv_lhs => rw [hf]
  rw [List.takeWhile_append_of_pos hall]
  simp

theorem evselParseOpt_keeps (opt : CStr) (attr : PerfEventAttr) :
    (evselParseOpt opt attr).type = attr.type ∧ (evselParseOpt opt attr).config = attr.config := by
  unfold evselParseOpt
  dsimp only
  split
  · exact ⟨rfl, rfl⟩
  · split
    · exact ⟨rfl, rfl⟩
    · exact ⟨rfl, rfl⟩

/-- A field parses iff its name is known, and its selector has the type and config of the row. -/
theorem profEvselParse_eq (f : CStr) :
    (profPmuFind (eventName f) = none ∧ profEvselParse f = none) ∨
    ∃ pmu attr, profPmuFind (eventName f) = some pmu ∧
      profEvselParse f = some (eventName f, attr) ∧
      attr.type = pmu.type ∧ attr.config = pmu.config := by
  unfold profEvselParse
  rcases hc : strchr f ':' with _ | k
  · rw [eventName_of_strchr_none hc]
    rcases hp : profPmuFind f with _ | pmu
    · exact .inl ⟨rfl, by simp [hp]⟩
    · exact .inr ⟨pmu, _, rfl, by simp [hp]; rfl, rfl, rfl⟩
  · rw [eventName_of_strchr_some hc]
    rcases hp : profPmuFind (f.take k) with _ | pmu
    · exact .inl ⟨rfl, by simp [hp]⟩
    · right
      by_cases hl : 1 < (f.drop k).length
      · simp only [hp, if_pos hl]
        exact ⟨pmu, _, rfl, rfl, evselParseOpt_keeps _ _⟩
      · simp only [hp, if_neg hl]
        exact ⟨pmu, _, rfl, rfl, rfl, rfl⟩

theorem adds_profEvlistAdd (evlist : ProfEvlist) (f : CStr) :
    Adds evlist [f] (profEvlistAdd evlist f).1 (profEvlistAdd evlist f).2 := by
  unfold profEvlistAdd
  rcases profEvselParse_eq f with ⟨hp, hf⟩ | ⟨pmu, attr, hp, hf, ht, hc⟩
  · rw [hf]
    refine ⟨?_, [], by simp, ?_⟩
    · simp [knownEvents_single, hp]
    · simp [knownEvents_single, hp]
  · rw [hf]
    refine ⟨?_, [_], rfl, ?_⟩
    · simp [knownEvents_single, hp]
    · simp [knownEvents_single, hp, profEvselInit, ht, hc]

/-- No event has a name of one character, so the length test loses no event. -/
theorem profPmuFind_short {f : CStr} (h : f.length ≤ 1) : profPmuFind (eventName f) = none := by
  have hnames : ∀ pmu ∈ pmuList, 1 < pmu.name.length := by decide
  have hlen : (eventName f).length ≤ f.length := (List.takeWhile_prefix _).length_le
  refine List.find?_eq_none.2 fun pmu hpmu he => ?_
  have hl := hnames pmu hpmu
  rw [eq_of_beq he] at hl
  omega

/-! ## The loop -/

/-- Where the loop stops: at the last field, or at the field before a comma that ends the text. -/
structure Stops (len : Nat) (evlist : ProfEvlist) (rest : CStr)
    (q : Nat × ProfEvlist × Nat × CStr) (fs : List CStr) (last : CStr) (tail : List CStr) :
    Prop where
  split : rest.splitOn ',' = fs ++ last :: tail
  at_last : q.2.2.2 = last
  ends : (tail = [] ∧ last ≠ [] ∧ Adds evlist fs q.1 q.2.1 ∧ q.2.2.1 + last.length = len) ∨
    (tail = [[]] ∧ Adds evlist (fs ++ [last]) q.1 q.2.1 ∧ q.2.2.1 + last.length + 1 = len)

theorem addLoop_stops (len : Nat) : ∀ (fuel : Nat) (evlist : ProfEvlist) (cur : Nat) (rest : CStr),
    rest ≠ [] → rest.length ≤ fuel → cur + rest.length = len →
      ∃ fs last tail, Stops len evlist rest (addLoop len fuel evlist cur rest) fs last tail
  | 0, _, _, rest, hne, hfuel, _ => by
    have hpos := List.length_pos_of_ne_nil hne
    omega
  | fuel + 1, evlist, cur, rest, hne, hfuel, hlen => by
    unfold addLoop
    rcases hc : strchr rest ',' with _ | k
    · have hno : ',' ∉ rest := List.idxOf?_eq_none_iff.1 hc
      exact ⟨[], rest, [], List.splitOn_eq_singleton hno, rfl, .inl ⟨rfl, hne, Adds.nil _, hlen⟩⟩
    · obtain ⟨hno, hrest⟩ := strchr_eq_some hc
      have hk : k < rest.length := (List.idxOf?_eq_some_iff.1 hc).1
      have hsplit : rest.splitOn ',' = rest.take k :: (rest.drop (k + 1)).splitOn ',' := by
        conv_lhs => rw [hrest]
        exact List.splitOn_append_cons_self_of_not_mem hno _
      have htake : (rest.take k).length = k := by rw [List.length_take]; omega
      dsimp only
      by_cases hlast : cur + k = len - 1
      · rw [if_pos hlast]
        have hnil : rest.drop (k + 1) = [] := List.drop_eq_nil_of_le (by omega)
        rw [hnil] at hsplit
        refine ⟨[], rest.take k, [[]], hsplit, rfl, .inr ⟨rfl, adds_profEvlistAdd _ _, ?_⟩⟩
        show cur + (rest.take k).length + 1 = len
        omega
      · rw [if_neg hlast]
        have hdrop : (rest.drop (k + 1)).length = rest.length - (k + 1) := List.length_drop
        obtain ⟨fs, last, tail, hs, ha, he⟩ := addLoop_stops len fuel
          (profEvlistAdd evlist (rest.take k)).2 (cur + k + 1) (rest.drop (k + 1))
          (List.ne_nil_of_length_pos (by omega)) (by omega) (by omega)
        have hone := adds_profEvlistAdd evlist (rest.take k)
        refine ⟨rest.take k :: fs, last, tail, by rw [hsplit, hs]; rfl, ha, ?_⟩
        rcases he with ⟨ht, hl, hadds, hcur⟩ | ⟨ht, hadds, hcur⟩
        · exact .inl ⟨ht, hl, hone.append hadds, hcur⟩
        · exact .inr ⟨ht, hone.append hadds, hcur⟩

/-! ## The whole text -/

theorem repeatsLast_of_split_nil {s : CStr} {fs : List CStr} {last : CStr}
    (hs : s.splitOn ',' = fs ++ [last, []]) :
    repeatsLast s = (profPmuFind (eventName last)).isSome := by
  unfold repeatsLast
  rw [hs]
  simp

theorem repeatsLast_of_split_last {s : CStr} {fs : List CStr} {last : CStr}
    (hs : s.splitOn ',' = fs ++ [last]) (hl : last ≠ []) : repeatsLast s = false := by
  unfold repeatsLast
  rw [hs, List.reverse_append, List.reverse_singleton, List.singleton_append]
  cases last with
  | nil => exact absurd rfl hl
  | cons c cs => rfl

/-- Without a comma at the end the walk adds what the split names. -/
theorem adds_of_last {evlist : ProfEvlist} {s : CStr} {fs : List CStr} {last : CStr}
    {q : Nat × ProfEvlist × Nat × CStr} (hq : q.2.2.2 = last) (hadds : Adds evlist fs q.1 q.2.1)
    (hcur : q.2.2.1 + last.length = s.length) :
    if q.2.2.1 < s.length - 1 then
      Adds evlist (fs ++ [last]) (q.1 + (profEvlistAdd q.2.1 q.2.2.2).1)
        (profEvlistAdd q.2.1 q.2.2.2).2
    else Adds evlist (fs ++ [last]) q.1 q.2.1 := by
  by_cases hc : q.2.2.1 < s.length - 1
  · rw [if_pos hc, hq]
    exact hadds.append (adds_profEvlistAdd _ _)
  · rw [if_neg hc]
    have hshort : profPmuFind (eventName last) = none := profPmuFind_short (by omega)
    have hkeep : Adds q.2.1 [last] 0 q.2.1 := by
      refine ⟨?_, [], by simp, ?_⟩ <;> simp [knownEvents_single, hshort]
    exact hadds.append hkeep

/-- A comma at the end adds the field before it once more, if that field is not empty. -/
theorem adds_of_comma {evlist : ProfEvlist} {s : CStr} {fs : List CStr} {last : CStr}
    {q : Nat × ProfEvlist × Nat × CStr} (hq : q.2.2.2 = last)
    (hadds : Adds evlist (fs ++ [last]) q.1 q.2.1) (hcur : q.2.2.1 + last.length + 1 = s.length) :
    if q.2.2.1 < s.length - 1 then
      Adds evlist (fs ++ [last] ++ [last]) (q.1 + (profEvlistAdd q.2.1 q.2.2.2).1)
        (profEvlistAdd q.2.1 q.2.2.2).2
    else Adds evlist (fs ++ [last]) q.1 q.2.1 ∧ last = [] := by
  by_cases hc : q.2.2.1 < s.length - 1
  · rw [if_pos hc, hq]
    exact hadds.append (adds_profEvlistAdd _ _)
  · rw [if_neg hc]
    exact ⟨hadds, List.eq_nil_of_length_eq_zero (by omega)⟩

/-- The empty field names no event. -/
theorem knownEvents_nil_field (fs : List CStr) : knownEvents (fs ++ [[]]) = knownEvents fs := by
  rw [knownEvents_append, knownEvents_single, profPmuFind_short (f := []) (Nat.zero_le 1)]
  simp

theorem Adds.congr {l l' : ProfEvlist} {fs gs : List CStr} {n : Int}
    (hk : knownEvents fs = knownEvents gs) (h : Adds l fs n l') : Adds l gs n l' := by
  obtain ⟨a, ha, ht⟩ := h.entries
  exact ⟨by rw [h.count, hk], a, ha, by rw [ht, hk]⟩

/-- Two readings of one outcome add the same number. -/
theorem Adds.length_eq {l l' : ProfEvlist} {fs gs : List CStr} {n : Int}
    (h : Adds l fs n l') (h' : Adds l gs n l') :
    (knownEvents fs).length = (knownEvents gs).length := by
  have hn := h.count.symm.trans h'.count
  omega

/-- **The walk is the split, but for a comma at the end.** For every event list and every text that
is not empty, `prof_evlist__add_from_str` adds the selectors of the comma-separated fields exactly
when the text does not end in a comma that follows a known event. -/
theorem profEvlistAddFromStr_fields (evlist : ProfEvlist) (s : CStr) (hs : s ≠ []) :
    Adds evlist (s.splitOn ',') (profEvlistAddFromStr evlist (some s)).1
      (profEvlistAddFromStr evlist (some s)).2 ↔ repeatsLast s = false := by
  have hlen : s.length ≠ 0 := fun h => hs (List.eq_nil_of_length_eq_zero h)
  obtain ⟨fs, last, tail, hsplit, hq, hend⟩ :=
    addLoop_stops s.length s.length evlist 0 s hs (le_refl _) (Nat.zero_add _)
  simp only [profEvlistAddFromStr, if_neg hlen]
  generalize addLoop s.length s.length evlist 0 s = q at hq hend ⊢
  rcases hend with ⟨rfl, hl, hadds, hcur⟩ | ⟨rfl, hadds, hcur⟩
  · have hstep := adds_of_last hq hadds hcur
    rw [hsplit, repeatsLast_of_split_last hsplit hl]
    by_cases hc : q.2.2.1 < s.length - 1
    · rw [if_pos hc] at hstep ⊢
      exact iff_of_true hstep rfl
    · rw [if_neg hc] at hstep ⊢
      exact iff_of_true hstep rfl
  · have hstep := adds_of_comma hq hadds hcur
    have hfields : knownEvents (fs ++ [last, []]) = knownEvents (fs ++ [last]) := by
      simpa using knownEvents_nil_field (fs ++ [last])
    rw [hsplit, repeatsLast_of_split_nil hsplit]
    by_cases hc : q.2.2.1 < s.length - 1
    · rw [if_pos hc] at hstep ⊢
      rcases hp : profPmuFind (eventName last) with _ | pmu
      · refine iff_of_true (hstep.congr ?_) rfl
        rw [hfields, knownEvents_append _ [last], knownEvents_single, hp]
        exact List.append_nil _
      · refine iff_of_false (fun h => ?_) (by simp)
        have hn := h.length_eq hstep
        rw [hfields, knownEvents_append (fs ++ [last]) [last], List.length_append,
          knownEvents_single, hp, Option.toList_some, List.length_singleton] at hn
        omega
    · rw [if_neg hc] at hstep ⊢
      obtain ⟨hstep, rfl⟩ := hstep
      refine iff_of_true (hstep.congr hfields.symm) ?_
      rw [profPmuFind_short (f := []) (Nat.zero_le 1)]
      rfl

/-- Two events around an empty field, added to an empty list. -/
theorem profEvlistAddFromStr_doubled_comma :
    "instructions:u,,l1d-read".toList ≠ [] ∧
      (Adds (profEvlistNew 7) ("instructions:u,,l1d-read".toList.splitOn ',')
          (profEvlistAddFromStr (profEvlistNew 7) (some "instructions:u,,l1d-read".toList)).1
          (profEvlistAddFromStr (profEvlistNew 7) (some "instructions:u,,l1d-read".toList)).2 ↔
        repeatsLast "instructions:u,,l1d-read".toList = false) ∧
      repeatsLast "instructions:u,,l1d-read".toList = false :=
  ⟨by decide, profEvlistAddFromStr_fields _ _ (by decide), by decide⟩

/-- `cpu-cycles,` gives two selectors for its one event. -/
theorem profEvlistAddFromStr_comma_at_end :
    ¬ ∀ (evlist : ProfEvlist) (s : CStr), s ≠ [] →
      Adds evlist (s.splitOn ',') (profEvlistAddFromStr evlist (some s)).1
        (profEvlistAddFromStr evlist (some s)).2 := by
  intro h
  have hcount := (h (profEvlistNew 7) "cpu-cycles,".toList (by decide)).count
  exact absurd hcount (by decide)

end Lprofile.Probe
