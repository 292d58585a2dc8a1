import Tgdcfs.Core.VolumeEffects

/-!
# Several file systems

A path of the server names a configured file system first.  A request that
replaces something removes it from one file system and then moves or copies
into another one, possibly the same.
-/

namespace Tgdcfs

open Lib

abbrev Clients := Dict Name Volume

/-- `lstrip("/")`. -/
def lstripSlashes (path : List Char) : List Char :=
  path.dropWhile (· = '/')

/-- `rstrip("/")`. -/
def rstripSlashes (path : List Char) : List Char :=
  (path.reverse.dropWhile (· = '/')).reverse

/-- `strip("/")`. -/
def stripSlashes (path : List Char) : List Char :=
  rstripSlashes (lstripSlashes path)

/-- The name of the file system and the path below it. -/
def splitGlobalPath (path : List Char) : Name × List Char :=
  let inside := if path.head? = some '/' then path.tail else path
  (inside.takeWhile (· ≠ '/'), (inside.dropWhile (· ≠ '/')).tail)

/-- `strip_webdav_prefix`. -/
def stripWebdavPrefix (destination : List Char) (clientName : Name) :
    List Char :=
  let mount := "/webdav/".toList ++ clientName
  if destination = mount then []
  else if (mount ++ ['/']).isPrefixOf destination then
    destination.drop mount.length
  else destination

namespace Clients

variable {clients : Clients}

/-- Apply an operation to one file system. -/
def run (clients : Clients) (clientName : Name)
    (operation : Volume → OpsAttempt) : Clients × Option OpsFailure :=
  match clients.get? clientName with
  | none => (clients, some (.doesNotExist clientName))
  | some volume =>
      (clients.set clientName (operation volume).1, (operation volume).2)

/-- An operation finds what it looks for in one file system. -/
def finds (clients : Clients) (clientName : Name)
    (takes : Volume → Bool) : Bool :=
  (clients.get? clientName).any takes

/-- The ids to come are new in every file system. -/
def Numbered (clients : Clients) : Prop :=
  ∀ clientName volume, clients.get? clientName = some volume →
    volume.Numbered

/-- Every directory and file of every file system is what it was, and every
stored message is still stored. -/
def Unchanged (before later : Clients) : Prop :=
  ∀ clientName, Option.Rel Volume.Keeps (before.get? clientName)
    (later.get? clientName)

theorem Unchanged.refl (clients : Clients) : Unchanged clients clients := by
  intro clientName
  cases clients.get? clientName with
  | none => exact .none
  | some volume => exact .some (.refl volume)

variable {clientName : Name}

/-- An operation that keeps its file system changes nothing. -/
theorem run_unchanged {operation : Volume → OpsAttempt}
    (keeps : ∀ volume, clients.get? clientName = some volume →
      volume.Keeps (operation volume).1) :
    Unchanged clients (clients.run clientName operation).1 := by
  rw [run]
  split
  · exact .refl clients
  · rename_i volume found
    intro other
    rw [Dict.get?_set]
    by_cases here : other = clientName
    · subst here
      rw [found, if_pos rfl]
      exact .some (keeps volume found)
    · rw [if_neg here]
      exact Unchanged.refl clients other

theorem not_unchanged {before later : Clients} {volume changed : Volume}
    (found : before.get? clientName = some volume)
    (foundLater : later.get? clientName = some changed)
    (differs : changed.tree ≠ volume.tree) : ¬Unchanged before later := by
  intro unchanged
  have related := unchanged clientName
  rw [found, foundLater] at related
  cases related with
  | some keeps => exact differs keeps.tree

/-- Remove what stands in the way, if there is anything, and place the
source. -/
def replace (remove : Option (Clients → Clients × Option OpsFailure))
    (place : Clients → Clients × Option OpsFailure) (clients : Clients) :
    Clients × Option OpsFailure :=
  match remove with
  | none => place clients
  | some remove =>
      match remove clients with
      | (removed, some failure) => (removed, some failure)
      | (removed, none) => place removed

/-- A step in one file system, or one that is not implemented. -/
inductive Acts (kind : (Volume → Bool) → (Volume → OpsAttempt) → Prop)
    (takes : Clients → Bool)
    (step : Clients → Clients × Option OpsFailure) : Prop where
  | inside {takesIn : Volume → Bool} {operation : Volume → OpsAttempt}
      (clientName : Name) (isKind : kind takesIn operation)
      (takes_eq : ∀ clients, takes clients = finds clients clientName takesIn)
      (step_eq : ∀ clients, step clients = run clients clientName operation)
  | refused (failure : OpsFailure) (takes_eq : ∀ clients,
      takes clients = false)
      (step_eq : ∀ clients, step clients = (clients, some failure))

variable {place : Clients → Clients × Option OpsFailure}
  {takes : Clients → Bool}

theorem place_unchanged_iff (acts : Acts Volume.Placement takes place)
    (numbered : Numbered clients) :
    Unchanged clients (place clients).1 ↔ takes clients = false := by
  cases acts with
  | refused failure takes_eq step_eq =>
      rw [step_eq, takes_eq]
      exact iff_of_true (.refl clients) rfl
  | inside clientName placement takes_eq step_eq =>
      rename_i takesIn operation
      rw [step_eq, takes_eq]
      constructor
      · intro unchanged
        cases found : clients.finds clientName takesIn with
        | false => rfl
        | true =>
            obtain ⟨volume, foundVolume, taken⟩ :=
              (Option.any_eq_true ..).mp found
            exfalso
            rw [run, foundVolume] at unchanged
            apply not_unchanged foundVolume _ _ unchanged
            · exact (operation volume).1
            · rw [Dict.get?_set, if_pos rfl]
            · exact placement.changes volume volume
                (numbered clientName volume foundVolume) (.refl volume) taken
      · intro missed
        apply run_unchanged
        intro volume found
        rw [finds, found, Option.any_some] at missed
        exact placement.refuses volume missed

theorem remove_refused {remove : Clients → Clients × Option OpsFailure}
    (acts : Acts Volume.Removal takes remove) (missed : takes clients = false)
    : Unchanged clients (remove clients).1 ∧ (remove clients).2 ≠ none := by
  cases acts with
  | refused failure takes_eq step_eq =>
      rw [step_eq]
      exact ⟨.refl clients, nofun⟩
  | inside clientName removal takes_eq step_eq =>
      rw [takes_eq] at missed
      rw [step_eq]
      constructor
      · apply run_unchanged
        intro volume found
        rw [finds, found, Option.any_some] at missed
        rw [(removal.refuses volume missed).1]
        exact .refl volume
      · rw [run]
        split
        · exact nofun
        · rename_i volume found
          rw [finds, found, Option.any_some] at missed
          exact (removal.refuses volume missed).2

theorem remove_changed {remove : Clients → Clients × Option OpsFailure}
    (acts : Acts Volume.Removal takes remove) (numbered : Numbered clients)
    (found : takes clients) :
    ∃ clientName volume removed, volume.Numbered ∧
      clients.get? clientName = some volume ∧
      (remove clients).1 = clients.set clientName removed ∧
      volume.Shrinks removed ∧ volume.Loses removed := by
  cases acts with
  | refused failure takes_eq step_eq =>
      rw [takes_eq] at found
      cases found
  | inside clientName removal takes_eq step_eq =>
      rename_i takesIn operation
      rw [takes_eq] at found
      obtain ⟨volume, foundVolume, taken⟩ := (Option.any_eq_true ..).mp found
      have sound := numbered clientName volume foundVolume
      refine ⟨clientName, volume, (operation volume).1, sound, foundVolume,
        ?_, removal.shrinks volume sound taken,
        removal.loses volume sound taken⟩
      rw [step_eq, run, foundVolume]

/-- What a removal took is missed also behind a placement. -/
theorem place_changed (acts : Acts Volume.Placement takes place)
    {volume removed : Volume} (sound : volume.Numbered)
    (found : clients.get? clientName = some volume)
    (shrinks : volume.Shrinks removed) (loses : volume.Loses removed) :
    ¬Unchanged clients (place (clients.set clientName removed)).1 := by
  cases acts with
  | refused failure takes_eq step_eq =>
      rw [step_eq]
      apply not_unchanged found
      · rw [Dict.get?_set, if_pos rfl]
      · exact loses.tree_ne
  | inside placeName placement takes_eq step_eq =>
      rename_i takesIn operation
      rw [step_eq]
      by_cases here : placeName = clientName
      · subst here
        rw [run, Dict.get?_set, if_pos rfl]
        apply not_unchanged found
        · rw [Dict.get?_set, if_pos rfl]
        · cases places : takesIn removed with
          | true => exact placement.changes volume _ sound shrinks places
          | false =>
              rw [(placement.refuses _ places).tree]
              exact loses.tree_ne
      · rw [run, Dict.get?_set, if_neg here]
        split
        · apply not_unchanged found
          · rw [Dict.get?_set, if_pos rfl]
          · exact loses.tree_ne
        · apply not_unchanged found
          · rw [Dict.get?_set, if_neg (Ne.symm here), Dict.get?_set,
              if_pos rfl]
          · exact loses.tree_ne

/-- A replacement changes nothing exactly if it takes nothing away and, with
nothing to remove, places nothing. -/
theorem replace_unchanged_iff {placeTakes : Clients → Bool}
    (placing : Acts Volume.Placement placeTakes place)
    {remove : Option (Clients → Clients × Option OpsFailure)}
    (removing : ∀ step ∈ remove, Acts Volume.Removal takes step)
    (numbered : Numbered clients) :
    Unchanged clients (replace remove place clients).1 ↔
      (if remove.isSome then takes clients else placeTakes clients) =
        false := by
  cases remove with
  | none => exact place_unchanged_iff placing numbered
  | some remove =>
      have acts := removing remove rfl
      rw [Option.isSome_some, if_pos rfl]
      cases found : takes clients with
      | false =>
          obtain ⟨unchanged, raises⟩ := remove_refused acts found
          refine iff_of_true ?_ rfl
          rw [replace]
          split
          · rename_i removed failure answer
            rw [answer] at unchanged
            exact unchanged
          · rename_i removed answer
            rw [answer] at raises
            exact absurd rfl raises
      | true =>
          obtain ⟨clientName, volume, removed, sound, foundVolume, step,
            shrinks, loses⟩ := remove_changed acts numbered found
          refine iff_of_false ?_ nofun
          rw [replace]
          split
          · rename_i result failure answer
            rw [answer] at step
            rw [show result = _ from step]
            apply not_unchanged foundVolume
            · rw [Dict.get?_set, if_pos rfl]
            · exact loses.tree_ne
          · rename_i result answer
            rw [answer] at step
            rw [show result = _ from step]
            exact place_changed placing sound foundVolume shrinks loses

end Clients

end Tgdcfs
