import ChipEight.Proofs.Guarded
import ChipEight.Proofs.Guises
import ChipEight.Proofs.Sessions

/-!
Two ways to clear the display. A console fills its rows; a host without a way of its own clears one
cell after the other. Whoever uses the machine or its host can not tell which of them is at work: a
machine reads of its display nothing but the cells that it is about to turn over.
-/
namespace ChipEight

/-- A host whose owner can remove the mark and handle the keypad. -/
class Owned (H : Type) extends Host H where
  takeChanged : H → Bool × H
  handle : (Keypad → Keypad) → H → H

instance : Owned Console where
  toHost := inferInstance
  takeChanged h := (h.screen.takeChanged.1, { h with screen := h.screen.takeChanged.2 })
  handle change h := { h with keypad := change h.keypad }

/-- A console without a way of its own to clear its display. -/
structure Cellwise where
  console : Console

instance : Host Cellwise where
  readCell h c := ((Host.readCell h.console c).1, ⟨(Host.readCell h.console c).2⟩)
  light h c := ⟨Host.light h.console c⟩
  darken h c := ⟨Host.darken h.console c⟩
  mark h := ⟨Host.mark h.console⟩
  readKey h k := ((Host.readKey h.console k).1, ⟨(Host.readKey h.console k).2⟩)

instance : Owned Cellwise where
  toHost := inferInstance
  takeChanged h := ((Owned.takeChanged h.console).1, ⟨(Owned.takeChanged h.console).2⟩)
  handle change h := ⟨Owned.handle change h.console⟩

namespace Screen

theorem get_foldl_put (cells : List Cell) (s : Screen) (c : Cell) :
    (cells.foldl (fun s d => s.put d false) s).get c = if c ∈ cells then false else s.get c := by
  induction cells generalizing s with
  | nil => simp
  | cons d rest ih =>
    simp only [List.foldl_cons, ih, get_put, List.mem_cons]
    grind

theorem changed_foldl_put (cells : List Cell) (s : Screen) :
    (cells.foldl (fun s d => s.put d false) s).changed = s.changed := by
  induction cells generalizing s with
  | nil => rfl
  | cons d rest ih => simp only [List.foldl_cons, ih, changed_put]

/-- Cell after cell, the whole display is cleared, and the mark is left alone. -/
theorem foldl_put_cells (s : Screen) : cells.foldl (fun s d => s.put d false) s = s.wipe := by
  apply ext_get
  · intro c
    simp [get_foldl_put, mem_cells]
  · exact changed_foldl_put cells s

end Screen

theorem Console.foldl_darken_cells (h : Console) :
    Screen.cells.foldl Host.darken h = Host.wipe h := by
  have hscreen : Screen.cells.foldl Host.darken h =
      { h with screen := Screen.cells.foldl (fun s d => s.put d false) h.screen } :=
    List.foldl_hom (fun s : Screen => ({ h with screen := s } : Console)) fun _ _ => rfl
  rw [hscreen, Screen.foldl_put_cells]
  rfl

theorem Cellwise.console_wipe (h : Cellwise) : (Host.wipe h).console = Host.wipe h.console := by
  rw [← Console.foldl_darken_cells]
  exact (List.foldl_hom Cellwise.console (fun _ _ => rfl)).symm

/-- What is ordered of a machine and of its host. -/
inductive Order where
  | cycle
  | execute (i : Instruction)
  | countDown
  | passOver
  | touch (t : Touch)

/-- What the owner of a host is told of a touch, and the host behind it. -/
def Touch.on {H : Type} [Owned H] (h : H) : Touch → Answer × H
  | .look c => (.flag (Host.readCell h c).1, (Host.readCell h c).2)
  | .light c => (.done, Host.light h c)
  | .darken c => (.done, Host.darken h c)
  | .wipe => (.done, Host.wipe h)
  | .mark => (.done, Host.mark h)
  | .takeChanged => (.flag (Owned.takeChanged h).1, (Owned.takeChanged h).2)
  | .setKey k down => (.done, Owned.handle (·.set k down) h)
  | .toggleKey k => (.done, Owned.handle (·.toggle k) h)
  | .setKeys flags => (.done, Owned.handle (fun _ => Keypad.setAll flags) h)
  | .releaseKeys => (.done, Owned.handle (fun _ => Keypad.released) h)

theorem Touch.on_console (h : Console) (t : Touch) : (t.on h).2 = t.apply h := by
  cases t <;> rfl

/-- The view of a host, with what its owner does. -/
structure Owned.View {H K : Type} [Owned H] [Owned K] (view : H → K) : Prop extends
    Host.View view where
  takeChanged : ∀ h, Owned.takeChanged (view h) =
    ((Owned.takeChanged h).1, view (Owned.takeChanged h).2)
  handle : ∀ change h, Owned.handle change (view h) = view (Owned.handle change h)

theorem Cellwise.view : Owned.View Cellwise.console where
  readCell _ _ := rfl
  light _ _ := rfl
  darken _ _ := rfl
  mark _ := rfl
  wipe h := h.console_wipe.symm
  readKey _ _ := rfl
  takeChanged _ := rfl
  handle _ _ := rfl

namespace Machine

variable {H K : Type}

def obey [Owned H] (m : Machine H) : Order → Turn (Machine H) Answer
  | .cycle => m.cycle.map .outcome
  | .execute i => (m.execute i).map .outcome
  | .countDown => m.countDown.map .flag
  | .passOver => ⟨m.passOver, .done, []⟩
  | .touch t => ⟨{ m with host := (t.on m.host).2 }, (t.on m.host).1, []⟩

section

variable [Host H] [Host K] {view : H → K}

theorem unnoticed_mapHost (seen : Host.View view) (index : UInt16) (i : Instruction) :
    Unnoticed ⟨id, id, id, view⟩ index i := ⟨rfl, fun _ => rfl, fun _ => ⟨rfl, rfl⟩, seen⟩

theorem execute_mapHost (seen : Host.View view) (m : Machine H) (i : Instruction) :
    (m.mapHost view).execute i = (m.execute i).within (·.mapHost view) :=
  execute_inGuise (unnoticed_mapHost seen m.index i)

theorem cycle_mapHost (seen : Host.View view) (m : Machine H) :
    (m.mapHost view).cycle = m.cycle.within (·.mapHost view) :=
  cycle_inGuise fun i _ => unnoticed_mapHost seen m.index i

end

variable [Owned H] [Owned K] {view : H → K}

theorem on_view (seen : Owned.View view) (h : H) (t : Touch) :
    t.on (view h) = ((t.on h).1, view (t.on h).2) := by
  cases t <;> simp only [Touch.on, seen.readCell, seen.light, seen.darken, seen.wipe, seen.mark,
    seen.takeChanged, seen.handle]

theorem obey_mapHost (seen : Owned.View view) (m : Machine H) (order : Order) :
    (m.mapHost view).obey order = (m.obey order).within (·.mapHost view) := by
  cases order with
  | cycle =>
    simp only [obey, cycle_mapHost seen.toView]
    rfl
  | execute i =>
    simp only [obey, execute_mapHost seen.toView]
    rfl
  | countDown | passOver => rfl
  | touch t =>
    have hhost : (m.mapHost view).host = view m.host := rfl
    simp only [obey, hhost, on_view seen]
    rfl

theorem lockstep_mapHost (seen : Owned.View view) :
    Session.Lockstep (fun m m' => m.mapHost view = m') obey obey := by
  intro m m' h order
  subst h
  rw [obey_mapHost seen]
  exact Turn.matches_within rfl

/-- A session at a console, and the same at one that clears its display cell by cell: every order
is answered alike, and the machines stay the same, pixels and mark included. -/
theorem session_cellwise (program : Program) (h : Console) (random : RandomStream)
    (orders : List Order) :
    Session.transcript obey (initial program (⟨h⟩ : Cellwise) random) orders =
        Session.transcript obey (initial program h random) orders ∧
      (Session.final obey (initial program (⟨h⟩ : Cellwise) random) orders).mapHost
          Cellwise.console = Session.final obey (initial program h random) orders :=
  (lockstep_mapHost Cellwise.view).session rfl orders

end Machine

end ChipEight
