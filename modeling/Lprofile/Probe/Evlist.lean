import Lprofile.Probe.Evsel

/-!
# Event lists

`struct prof_evlist` and its operations (`evlist.c`). The linked list of
selectors is a `List` in the order of its nodes; allocations succeed.

`forEach` is `evlist__for_each` with a body that changes the selector it is at.
-/

namespace Lprofile.Probe

open Lprofile.Lib

structure ProfEvlist where
  entries : List ProfEvsel
  nrEntries : Nat
  pid : Int

def profEvlistNew (pid : Int) : ProfEvlist := ⟨[], 0, pid⟩

/-- `evlist__for_each`. -/
def forEach (f : ProfEvsel → Os → ProfEvsel × Os) : List ProfEvsel → Os → List ProfEvsel × Os
  | [], os => ([], os)
  | e :: es, os =>
    let r := f e os
    let q := forEach f es r.2
    (r.1 :: q.1, q.2)

/-- `evlist__for_each_reverse`. -/
def forEachReverse (f : ProfEvsel → Os → ProfEvsel × Os) (es : List ProfEvsel) (os : Os) :
    List ProfEvsel × Os :=
  let q := forEach f es.reverse os
  (q.1.reverse, q.2)

/-- `evlist__for_each_safe` with the body of `prof_evlist__delete`: every selector is unlinked
and freed. -/
def deleteEach : List ProfEvsel → Os → Os
  | [], os => os
  | e :: es, os => deleteEach es (profEvselDelete e os)

def profEvlistDelete (evlist : ProfEvlist) (os : Os) : Os :=
  let q := forEachReverse profEvselClose evlist.entries os
  deleteEach q.1 q.2

/-- `__prof_evlist__add`: how many selectors were added, 0 or 1. -/
def profEvlistAdd (evlist : ProfEvlist) (str : CStr) : Nat × ProfEvlist :=
  match profEvselParse str with
  | none => (0, evlist)
  | some (name, attr) =>
    let e := profEvselInit (profEvselNew name) attr evlist.nrEntries
    (1, { evlist with entries := evlist.entries ++ [e], nrEntries := evlist.nrEntries + 1 })

/-- The `while` loop of `prof_evlist__add_from_str`. `cur` is `pcur - tmp` and `rest` the C string
at `pcur`; the result is the number added, the list, and `cur` and `rest` at the end. Every round
moves `pcur` past a comma, so `fuel` is at most the number of characters. -/
def addLoop (len : Nat) : Nat → ProfEvlist → Nat → CStr → Nat × ProfEvlist × Nat × CStr
  | 0, evlist, cur, rest => (0, evlist, cur, rest)
  | fuel + 1, evlist, cur, rest =>
    match strchr rest ',' with
    | none => (0, evlist, cur, rest)
    | some k =>
      let r := profEvlistAdd evlist (rest.take k)
      if cur + k = len - 1 then (r.1, r.2, cur, rest.take k)
      else
        let q := addLoop len fuel r.2 (cur + k + 1) (rest.drop (k + 1))
        (r.1 + q.1, q.2)

/-- `prof_evlist__add_from_str`; `-22` is `-EINVAL`. -/
def profEvlistAddFromStr (evlist : ProfEvlist) : Option CStr → Int × ProfEvlist
  | none => (-22, evlist)
  | some str =>
    if str.length = 0 then (-22, evlist)
    else
      let len := str.length
      let q := addLoop len len evlist 0 str
      if q.2.2.1 < len - 1 then
        let r := profEvlistAdd q.2.1 q.2.2.2
        (q.1 + r.1, r.2)
      else (q.1, q.2.1)

def profEvlistEnable (evlist : ProfEvlist) (os : Os) : ProfEvlist × Os :=
  let q := forEach (fun e os => (profEvselEnable e os).2) evlist.entries os
  ({ evlist with entries := q.1 }, q.2)

/-- The first loop of `prof_evlist__start`; `false` is the jump to `fail_close_evsel`. -/
def openEach (pid : Int) : List ProfEvsel → Os → Bool × List ProfEvsel × Os
  | [], os => (true, [], os)
  | e :: es, os =>
    let r := if e.isOpen then (0, e, os) else profEvselOpen e pid os
    if r.1 < 0 then (false, r.2.1 :: es, r.2.2)
    else
      let q := openEach pid es r.2.2
      (q.1, r.2.1 :: q.2.1, q.2.2)

/-- The body of the `fail_close_evsel` loop. -/
def closeIfOpen (e : ProfEvsel) (os : Os) : ProfEvsel × Os :=
  if e.isOpen then profEvselClose e os else (e, os)

def profEvlistStart (evlist : ProfEvlist) (os : Os) : Int × ProfEvlist × Os :=
  let q := openEach evlist.pid evlist.entries os
  if q.1 then (0, profEvlistEnable { evlist with entries := q.2.1 } q.2.2)
  else
    let c := forEach closeIfOpen q.2.1 q.2.2
    (-1, { evlist with entries := c.1 }, c.2)

def profEvlistStop (evlist : ProfEvlist) (os : Os) : ProfEvlist × Os :=
  let q := forEach profEvselDisable evlist.entries os
  ({ evlist with entries := q.1 }, q.2)

end Lprofile.Probe
