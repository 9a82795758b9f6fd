import Lprofile.Utils.FuncMap

/-!
# The cache file, written and read back

`updateCache` writes a line of any length for each function; `loadFromCache`
reads lines into `char str[FUNC_NAME_MAX]`. A name of 255 characters fills the
buffer, so that its newline comes back as an empty name of its own; a longer one
comes back in pieces.

`cache_roundtrip_iff` says for which lists of names the map is the same
afterwards.
-/

namespace Lprofile.Utils

open Lprofile.Lib

/-! ## The lines of the file -/

theorem length_chomp_le (l : CStr) : (chomp l).length ≤ l.length := by
  unfold chomp
  split
  · simp
  · exact Nat.le_refl _

theorem chomp_line {n : CStr} : chomp (n ++ ['\n']) = n := by simp [chomp]

theorem chomp_piece {n : CStr} (h : '\n' ∉ n) : chomp n = n := by
  rw [chomp, if_neg]
  exact fun e => h (List.mem_of_getLast? e)

/-- The names `loadFromCache` finds in a text. -/
def cachedNames (text : CStr) : List CStr := (fgetsAll funcNameMax text).map chomp

/-- What a name of at most 255 characters is read back as. -/
def readBack (n : CStr) : List CStr := if n.length = funcNameMax - 1 then [n, []] else [n]

theorem readBack_cases (n : CStr) : readBack n = [n] ∨ readBack n = [n, []] := by
  unfold readBack
  split
  · exact .inr rfl
  · exact .inl rfl

theorem flatMap_readBack_of_short {names : List CStr}
    (h : ∀ n ∈ names, n.length < funcNameMax - 1) : names.flatMap readBack = names := by
  have hone : ∀ n ∈ names, readBack n = [n] := fun n hn => if_neg (h n hn).ne
  rw [List.flatMap_congr hone]
  simp

theorem length_le_of_mem_cachedNames {text n : CStr} (h : n ∈ cachedNames text) :
    n.length ≤ funcNameMax - 1 := by
  obtain ⟨l, hl, rfl⟩ := List.mem_map.1 h
  exact (length_chomp_le l).trans (length_le_of_mem_fgetsAll hl)

theorem cachedNames_cacheText {names : List CStr} (hline : ∀ n ∈ names, '\n' ∉ n)
    (hlen : ∀ n ∈ names, n.length ≤ funcNameMax - 1) :
    cachedNames (cacheText names) = names.flatMap readBack := by
  induction names with
  | nil => rw [cacheText, List.flatMap_nil, cachedNames, fgetsAll_nil]; rfl
  | cons n names ih =>
    have hn := hline n List.mem_cons_self
    have hl := hlen n List.mem_cons_self
    have ih := ih (fun m hm => hline m (List.mem_cons_of_mem _ hm))
      (fun m hm => hlen m (List.mem_cons_of_mem _ hm))
    have htext : cacheText (n :: names) = n ++ '\n' :: cacheText names := by simp [cacheText]
    rw [List.flatMap_cons, ← ih, htext, readBack]
    by_cases hfull : n.length = funcNameMax - 1
    · -- the newline does not fit any more
      have hne : n ≠ [] := fun e => by simp [e] at hfull
      have hsize : n.length + 1 = funcNameMax := congrArg (· + 1) hfull
      have hnl : fgetsAll funcNameMax ('\n' :: cacheText names) =
          ['\n'] :: fgetsAll funcNameMax (cacheText names) :=
        fgetsAll_line (l := []) List.not_mem_nil (by decide)
      rw [if_pos hfull, cachedNames, fgetsAll_piece hn hsize hne, hnl]
      simp only [List.map_cons, chomp_piece hn, List.cons_append, List.nil_append]
      rw [show chomp ['\n'] = [] from rfl, cachedNames]
    · have hlt : n.length + 2 ≤ funcNameMax := by
        have hlt : n.length < 255 := lt_of_le_of_ne hl hfull
        show n.length + 2 ≤ 256
        omega
      rw [if_neg hfull, cachedNames, fgetsAll_line hn hlt, List.map_cons, chomp_line]
      rfl

theorem cachedNames_of_short {names : List CStr} (hline : ∀ n ∈ names, '\n' ∉ n)
    (hlen : ∀ n ∈ names, n.length < funcNameMax - 1) : cachedNames (cacheText names) = names := by
  rw [cachedNames_cacheText hline fun n hn => (hlen n hn).le, flatMap_readBack_of_short hlen]

/-! ## Writing and reading back -/

theorem updateCache_ok {env : LoadEnv} (hd : env.buildDir = true) (ho : env.openCache = true)
    (image : CStr) (m : FuncMap) (fs : Fs) :
    updateCache env image m fs =
      (true, fs.write (cachefile m) (cacheText m.funcs) (.cache image)) := by
  simp [updateCache, hd, ho]

theorem loadFromCache_ok {env : LoadEnv} (ho : env.openCache = true) {skip : List CStr}
    {m : FuncMap} {fs : Fs} {file : File} (hf : fs.files (cachefile m) = some file) :
    loadFromCache skip env m fs = (true, addFunctions skip m (cachedNames file.text)) := by
  simp [loadFromCache, hf, ho, addLines, cachedNames]

/-- The names the round trip is asked for. -/
structure CacheNames (initialised : Bool) (names : List CStr) : Prop where
  nodup : names.Nodup
  plain : ∀ n ∈ names, '\n' ∉ n ∧ '\x00' ∉ n
  kept : ∀ n ∈ names, n ∉ skiplist initialised

theorem CacheNames.addFunctions_funcs {b : Bool} {names : List CStr} (h : CacheNames b names)
    (path : CStr) (wrap : Bool) :
    (addFunctions (skiplist b) (FuncMap.ofPath path wrap) names).funcs = names := by
  rw [(addFunctions_spec (FuncMap.numbered_ofPath path wrap) _ _).2]
  exact insertAll_eq_append h.nodup (fun _ _ => List.not_mem_nil) h.kept

/-- The map of `names` is written to the cache and read back into an empty map. -/
def RoundTrips (initialised : Bool) (env env' : LoadEnv) (image path : CStr) (wrap wrap' : Bool)
    (fs : Fs) (names : List CStr) : Prop :=
  let m := addFunctions (skiplist initialised) (FuncMap.ofPath path wrap) names
  let u := updateCache env image m fs
  let r := loadFromCache (skiplist initialised) env' (FuncMap.ofPath path wrap') u.2
  u.1 = true ∧ r.1 = true ∧ r.2.funcs = m.funcs ∧ ∀ n, getFunctionID r.2 n = getFunctionID m n

/-- Every name fits the buffer, and the empty name the first full one leaves behind is there
already or comes next anyway. -/
def FitsBuffer (names : List CStr) : Prop :=
  (∀ n ∈ names, n.length ≤ funcNameMax - 1) ∧
    ∀ pre n post, names = pre ++ n :: post → n.length = funcNameMax - 1 →
      (∀ p ∈ pre, p.length < funcNameMax - 1) → [] ∈ pre ∨ post.head? = some []

theorem addFunctions_cachefile {m : FuncMap} (skip names : List CStr) :
    cachefile (addFunctions skip m names) = cachefile m := by
  induction names generalizing m with
  | nil => rfl
  | cons f names ih =>
    rw [addFunctions, List.foldl_cons]
    exact ih.trans (by rw [cachefile, (addFunction_frame skip m f).1]; rfl)

/-- The round trip comes down to the names read back. -/
theorem roundTrips_iff {b : Bool} {names : List CStr} (h : CacheNames b names)
    {env env' : LoadEnv} (hd : env.buildDir = true) (ho : env.openCache = true)
    (ho' : env'.openCache = true) (image path : CStr) (wrap wrap' : Bool) (fs : Fs) :
    RoundTrips b env env' image path wrap wrap' fs names ↔
      insertAll (skiplist b) [] (cachedNames (cacheText names)) = names := by
  obtain ⟨hm, hmf⟩ := addFunctions_spec (FuncMap.numbered_ofPath path wrap) (skiplist b) names
  have hfuncs := h.addFunctions_funcs path wrap
  unfold RoundTrips
  simp only
  rw [updateCache_ok hd ho]
  have hfile : (fs.write (cachefile (addFunctions (skiplist b) (FuncMap.ofPath path wrap) names))
      (cacheText (addFunctions (skiplist b) (FuncMap.ofPath path wrap) names).funcs)
      (.cache image)).files (cachefile (FuncMap.ofPath path wrap')) =
      some ⟨cacheText names, fs.now, .cache image⟩ := by
    rw [addFunctions_cachefile, hfuncs]
    exact Function.update_self ..
  obtain ⟨hm', hmf'⟩ := addFunctions_spec (FuncMap.numbered_ofPath path wrap') (skiplist b)
    (cachedNames (cacheText names))
  rw [loadFromCache_ok ho' hfile, hfuncs]
  simp only [true_and]
  rw [hmf']
  refine ⟨And.left, fun e => ⟨e, hm'.getFunctionID_congr hm ?_⟩⟩
  rw [hmf', hfuncs]
  exact e

/-! ## When the names come back -/

theorem fitsBuffer_of_short {names : List CStr} (h : ∀ n ∈ names, n.length < funcNameMax - 1) :
    FitsBuffer names := by
  refine ⟨fun n hn => (h n hn).le, fun pre n post e hn _ => absurd hn (h n ?_).ne⟩
  rw [e]
  simp

/-- The names before the first full one, it, and the others. -/
theorem exists_first_full {names : List CStr} (hlen : ∀ n ∈ names, n.length ≤ funcNameMax - 1) :
    (∀ n ∈ names, n.length < funcNameMax - 1) ∨ ∃ pre n post, names = pre ++ n :: post ∧
      n.length = funcNameMax - 1 ∧ ∀ p ∈ pre, p.length < funcNameMax - 1 := by
  induction names with
  | nil => exact .inl (by simp)
  | cons n names ih =>
    by_cases hn : n.length = funcNameMax - 1
    · exact .inr ⟨[], n, names, rfl, hn, by simp⟩
    · have hlt : n.length < funcNameMax - 1 := lt_of_le_of_ne (hlen n List.mem_cons_self) hn
      rcases ih fun m hm => hlen m (List.mem_cons_of_mem _ hm) with h | ⟨pre, m, post, e, hm, hp⟩
      · exact .inl (List.forall_mem_cons.2 ⟨hlt, h⟩)
      · exact .inr ⟨n :: pre, m, post, by rw [e]; rfl, hm, List.forall_mem_cons.2 ⟨hlt, hp⟩⟩

section FirstFull

variable {drop pre post : List CStr} {n : CStr}

/-- Up to the empty name after the first full one, the names come back as they are. -/
theorem insertAll_readBack_append (hn : n.length = funcNameMax - 1)
    (hp : ∀ p ∈ pre, p.length < funcNameMax - 1) (hnd : (pre ++ [n]).Nodup)
    (hdrop : ∀ m ∈ pre ++ [n], m ∉ drop) :
    insertAll drop [] ((pre ++ n :: post).flatMap readBack) =
      insertAll drop (insertNew drop (pre ++ [n]) []) (post.flatMap readBack) := by
  have hsplit : (pre ++ n :: post).flatMap readBack =
      (pre ++ [n]) ++ [] :: post.flatMap readBack := by
    rw [List.flatMap_append, flatMap_readBack_of_short hp, List.flatMap_cons, readBack, if_pos hn]
    simp
  rw [hsplit, insertAll_append, insertAll_cons,
    insertAll_eq_append hnd (fun _ _ => List.not_mem_nil) hdrop, List.nil_append]

theorem insertAll_readBack_eq_iff (hn : n.length = funcNameMax - 1)
    (hp : ∀ p ∈ pre, p.length < funcNameMax - 1) (hnd : (pre ++ n :: post).Nodup)
    (hdrop : ∀ m ∈ pre ++ n :: post, m ∉ drop) (hnil : [] ∉ drop) :
    insertAll drop [] ((pre ++ n :: post).flatMap readBack) = pre ++ n :: post ↔
      [] ∈ pre ∨ post.head? = some [] := by
  have hne : n ≠ [] := fun e => by simp [e] at hn
  have hassoc : pre ++ n :: post = (pre ++ [n]) ++ post := by simp
  rw [hassoc] at hnd hdrop
  obtain ⟨hndl, hndr, hdis⟩ := List.nodup_append.1 hnd
  have hnew : ∀ m ∈ post, m ∉ pre ++ [n] := fun m hm h => hdis m h m hm rfl
  rw [insertAll_readBack_append hn hp hndl fun m hm => hdrop m (List.mem_append_left _ hm), hassoc]
  by_cases hmem : [] ∈ pre
  · have hacc : [] ∈ pre ++ [n] := List.mem_append_left _ hmem
    rw [insertNew_of_mem hacc, insertAll_flatMap hacc readBack_cases,
      insertAll_eq_append hndr hnew fun m hm => hdrop m (List.mem_append_right _ hm)]
    exact iff_of_true rfl (.inl hmem)
  · have hacc : [] ∉ pre ++ [n] := by simp [hmem, Ne.symm hne]
    rw [insertNew_of_not_mem hacc hnil, or_iff_right hmem]
    have hin : [] ∈ pre ++ [n] ++ [[]] := by simp
    rw [insertAll_flatMap hin readBack_cases]
    constructor
    · intro e
      have hpre : pre ++ [n] ++ [[]] <+: pre ++ [n] ++ post := e ▸ prefix_insertAll
      obtain ⟨rest, hr⟩ := (List.prefix_append_right_inj _).1 hpre
      rw [← hr]
      rfl
    · intro e
      obtain ⟨rest, rfl⟩ := List.head?_eq_some_iff.1 e
      obtain ⟨hnot, hndr⟩ := List.nodup_cons.1 hndr
      rw [insertAll_cons, insertNew_of_mem hin, insertAll_eq_append hndr]
      · simp
      · intro m hm
        rw [List.mem_append, List.mem_singleton, not_or]
        exact ⟨hnew m (List.mem_cons_of_mem _ hm), fun e => hnot (e ▸ hm)⟩
      · exact fun m hm => hdrop m (List.mem_append_right _ (List.mem_cons_of_mem _ hm))

end FirstFull

theorem nil_notMem_skiplist (b : Bool) : [] ∉ skiplist b := by
  cases b <;> decide

theorem readBack_names_iff {b : Bool} {names : List CStr} (h : CacheNames b names) :
    insertAll (skiplist b) [] (cachedNames (cacheText names)) = names ↔ FitsBuffer names := by
  have hline : ∀ n ∈ names, '\n' ∉ n := fun n hn => (h.plain n hn).1
  by_cases hlen : ∀ n ∈ names, n.length ≤ funcNameMax - 1
  · rw [FitsBuffer, and_iff_right hlen]
    rcases exists_first_full hlen with hshort | ⟨pre, n, post, rfl, hn, hp⟩
    · rw [cachedNames_of_short hline hshort,
        insertAll_eq_append h.nodup (fun _ _ => List.not_mem_nil) h.kept]
      exact iff_of_true rfl (fitsBuffer_of_short hshort).2
    · rw [cachedNames_cacheText hline hlen,
        insertAll_readBack_eq_iff hn hp h.nodup h.kept (nil_notMem_skiplist b)]
      refine ⟨fun hr pre' n' post' e hn' hp' => ?_, fun hf => hf pre n post rfl hn hp⟩
      -- the first full name is at one place only
      have hpre : pre = pre' := by
        rcases List.append_eq_append_iff.1 e with ⟨c, rfl, hc⟩ | ⟨c, rfl, hc⟩
        · cases c with
          | nil => simp
          | cons x c =>
            cases hc
            exact absurd hn (hp' n (by simp)).ne
        · cases c with
          | nil => simp
          | cons x c =>
            cases hc
            exact absurd hn' (hp n' (by simp)).ne
      subst hpre
      cases List.append_cancel_left e
      exact hr
  · -- what is read back is never longer than the buffer
    refine iff_of_false (fun e => hlen fun n hn => ?_) fun hf => hlen hf.1
    rw [← e, mem_insertAll] at hn
    rcases hn with hn | ⟨hn, -⟩
    · cases hn
    · exact length_le_of_mem_cachedNames hn

/-- **A map comes back from its cache file as it was exactly when every name fits the buffer** and
the first full one does not add an empty name. -/
theorem cache_roundtrip_iff {b : Bool} {names : List CStr} (h : CacheNames b names)
    {env env' : LoadEnv} (hd : env.buildDir = true) (ho : env.openCache = true)
    (ho' : env'.openCache = true) (image path : CStr) (wrap wrap' : Bool) (fs : Fs) :
    RoundTrips b env env' image path wrap wrap' fs names ↔ FitsBuffer names := by
  rw [roundTrips_iff h hd ho ho', readBack_names_iff h]

theorem cache_roundtrip_iff_main :
    CacheNames true ["main".toList, "foo".toList] ∧
      FitsBuffer ["main".toList, "foo".toList] ∧
      RoundTrips true .granting .granting [] "a.out".toList false false .empty
        ["main".toList, "foo".toList] := by
  have hnames : CacheNames true ["main".toList, "foo".toList] :=
    ⟨by decide, by decide, by decide⟩
  have hfits : FitsBuffer ["main".toList, "foo".toList] := fitsBuffer_of_short (by decide)
  exact ⟨hnames, hfits, (cache_roundtrip_iff hnames rfl rfl rfl _ _ _ _ _).2 hfits⟩

/-- A name of 255 characters puts an empty name before `main`. -/
theorem full_name_shifts :
    CacheNames true [List.replicate 255 'a', "main".toList] ∧
      ¬ RoundTrips true .granting .granting [] "a.out".toList false false .empty
        [List.replicate 255 'a', "main".toList] := by
  have hnames : CacheNames true [List.replicate 255 'a', "main".toList] :=
    ⟨by decide +kernel, by decide +kernel, by decide +kernel⟩
  refine ⟨hnames, fun h => ?_⟩
  have hfits := (readBack_names_iff hnames).1 ((roundTrips_iff hnames rfl rfl rfl _ _ _ _ _).1 h)
  rcases hfits.2 [] _ _ rfl List.length_replicate (by simp) with h | h
  · cases h
  · cases h

end Lprofile.Utils
