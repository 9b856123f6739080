import MegaBasterd.Library.Transition
import MegaBasterd.Queue.Recovery

/-!
The two stores side by side, with their backups: calls of any number of
`ConfigStore`s and `QueueManager`s, and edits of the files between them. As
long as what `recover`, `reset` and a bare `save` write over is valid or was
preserved, no corrupt content is replaced without a backup of its bytes
(`corrupt_stores_preserved`).
-/

namespace MegaBasterd.Preservation

open Library Library.BigEndian Library.Text Library.Aead Library.IsoTime Library.Transition
open MegaBasterd.Corruption MegaBasterd.Queue
open MegaBasterd.Settings (Host Tools Stored ConfigStore Surroundings Desk ValidConfig SoundConfig)

/-! ## Runs -/

structure World (ι κ : Type) where
  config : StoreFile Stored
  stores : ι → ConfigStore
  queue : StoreFile Stored
  /-- The flag of each manager that was constructed. -/
  managers : κ → Option Bool

inductive Event (ι κ : Type)
  | editConfig (raw : Option Bytes)
  | config (p : ι) (s : Surroundings) (call : Settings.Call)
  | editQueue (raw : Option Bytes)
  | construct (q : κ) (v : Visit)
  | queue (q : κ) (v : Visit) (call : Call)

/-- The names of the files. -/
structure Names where
  config : Str
  queue : Str

def World.start {ι κ : Type} (config queue : Option Bytes) (besideConfig besideQueue : Directory) : World ι κ where
  config := ⟨config.map Stored.external, besideConfig, [], []⟩
  stores _ := {}
  queue := ⟨queue.map Stored.external, besideQueue, [], []⟩
  managers _ := none

section

variable {ι κ : Type} [DecidableEq ι] [DecidableEq κ] (H : Host) (T : Tools) (N : Names) (R : Reader) (A : Scheme)

/-- A call of a config store. -/
def World.configure (w : World ι κ) (p : ι) (s : Surroundings) (call : Settings.Call) : World ι κ :=
  let desk := call.after H T N.config s ⟨w.stores p, w.config⟩
  { w with config := desk.file, stores := Function.update w.stores p desk.store }

/-- `QueueManager(path)`; when it raises there is no manager. -/
def World.construct (w : World ι κ) (q : κ) (v : Visit) : World ι κ :=
  let o := v.call H T N.queue R A false w.queue (.op .init)
  { w with
    queue := o.file
    managers := Function.update w.managers q (if o.returned then some o.corrupt else none) }

/-- A call of a queue manager with this flag. -/
def World.operate (w : World ι κ) (q : κ) (v : Visit) (corrupt : Bool) (call : Call) : World ι κ :=
  let o := v.call H T N.queue R A corrupt w.queue call
  { w with queue := o.file, managers := Function.update w.managers q (some o.corrupt) }

inductive Step (w : World ι κ) : Event ι κ → World ι κ → Prop
  | editConfig (raw : Option Bytes) :
      Step w (.editConfig raw) { w with config := { w.config with content := raw.map Stored.external } }
  | config (p : ι) (s : Surroundings) (call : Settings.Call) :
      Step w (.config p s call) (w.configure H T N p s call)
  | editQueue (raw : Option Bytes) :
      Step w (.editQueue raw) { w with queue := { w.queue with content := raw.map Stored.external } }
  | construct (q : κ) (v : Visit) (h : w.managers q = none) :
      Step w (.construct q v) (w.construct H T N R A q v)
  | queue {corrupt : Bool} (q : κ) (v : Visit) (call : Call) (h : w.managers q = some corrupt) :
      Step w (.queue q v call) (w.operate H T N R A q v corrupt call)

/-- Nothing corrupt is written over by a call that does not know of a backup. -/
def Careful (w : World ι κ) : Event ι κ → Prop
  | .config _ s call => call.Careful H T N.config s w.config
  | .queue q v call => ∀ corrupt, w.managers q = some corrupt → call.Careful H T R v corrupt w.queue
  | .editConfig _ | .editQueue _ | .construct _ _ => True

end

structure Inv (H : Host) (T : Tools) (R : Reader) {ι κ : Type} (w : World ι κ) : Prop where
  config : SoundConfig H T w.config
  queue : SoundQueue H T R w.queue

/-- What was replaced was valid or had a backup of its bytes at that moment. -/
def Kept (H : Host) (T : Tools) (R : Reader) {ι κ : Type} (w : World ι κ) : Prop :=
  (∀ old ∈ w.config.replaced, ¬ValidConfig H old.1 → Backed old.2 (old.1.raw T)) ∧
    ∀ old ∈ w.queue.replaced, ¬ValidQueue H R old.1 → Backed old.2 (old.1.raw T)

variable {H : Host} {T : Tools} {N : Names} {R : Reader} {A : Scheme}
  {ι κ : Type} [DecidableEq ι] [DecidableEq κ] {w w' : World ι κ} {e : Event ι κ}

theorem Inv.step (h : Inv H T R w) (hstep : Step H T N R A w e w') (hcareful : Careful H T N R w e) :
    Inv H T R w' := by
  cases hstep with
  | editConfig raw => exact ⟨⟨h.config.preserved, h.config.replaced⟩, h.queue⟩
  | config p s call => exact ⟨call.after_sound h.config hcareful, h.queue⟩
  | editQueue raw => exact ⟨h.config, ⟨h.queue.preserved, h.queue.replaced⟩⟩
  | construct q v hnew => exact ⟨h.config, call_sound _ h.queue trivial⟩
  | queue q v call hflag => exact ⟨h.config, call_sound call h.queue (hcareful _ hflag)⟩

omit [DecidableEq ι] [DecidableEq κ] in
theorem inv_start (config queue : Option Bytes) (besideConfig besideQueue : Directory) :
    Inv H T R (World.start config queue besideConfig besideQueue : World ι κ) :=
  ⟨⟨by simp [World.start], by simp [World.start]⟩, ⟨by simp [World.start], by simp [World.start]⟩⟩

/-- In every run whose writers over unread files know of a backup, no corrupt bytes are lost. -/
theorem corrupt_stores_preserved (H : Host) (T : Tools) (N : Names) (R : Reader) (A : Scheme)
    {config queue : Option Bytes} {besideConfig besideQueue : Directory} {es : List (Event ι κ)}
    (hrun : Run (Under (Step H T N R A) (Careful H T N R)) (World.start config queue besideConfig besideQueue)
      es w) : Kept H T R w := by
  have hinv : Inv H T R w := by
    refine hrun.invariant ?_ (inv_start config queue besideConfig besideQueue)
    rintro w e w' h ⟨hstep, hcareful⟩
    exact h.step hstep hcareful
  exact ⟨hinv.config.replaced, hinv.queue.replaced⟩

/-! A queue file of one byte that is no UTF-8, and a manager that backs it up. -/

def plainTools : Tools where
  dumps _ := [91, 93]
  hexdigest _ := text "a8100ae6aa1940d0"

def plainNames : Names := ⟨text "config.json", text "queue.json"⟩

def plainVisit : Visit where
  env := quietEnv
  readable := true
  backup := ⟨[], [], text "20260101-000000", false, .whole, []⟩

/-- The manager constructed on the file, and after its `reset`. -/
def plainConstructed (file : Option Bytes) : World Unit Unit :=
  (World.start none file [] []).construct Settings.plainHost plainTools plainNames documented zeroTag () plainVisit

def plainReset (w : World Unit Unit) (corrupt : Bool) : World Unit Unit :=
  w.operate Settings.plainHost plainTools plainNames documented zeroTag () plainVisit corrupt (.op .reset)

theorem corrupt_stores_preserved_reset :
    (plainReset (plainConstructed (some [255])) true).queue.replaced ≠ [] ∧
      Kept Settings.plainHost plainTools documented (plainReset (plainConstructed (some [255])) true) := by
  have hsafe : SafeQueue Settings.plainHost plainTools documented (plainConstructed (some [255])).queue := by
    rintro _ ⟨⟩
    exact Or.inr (List.mem_cons_self ..)
  have hrun : Run (Under (Step Settings.plainHost plainTools plainNames documented zeroTag)
      (Careful Settings.plainHost plainTools plainNames documented)) (World.start none (some [255]) [] [])
      [.construct () plainVisit, .queue () plainVisit (.op .reset)]
      (plainReset (plainConstructed (some [255])) true) :=
    (Run.single ⟨.construct () plainVisit rfl, trivial⟩).snoc
      ⟨.queue () plainVisit (.op .reset) rfl, fun _ _ _ => hsafe⟩
  refine ⟨?_, corrupt_stores_preserved Settings.plainHost plainTools plainNames documented zeroTag hrun⟩
  decide

/-- A queue that is broken after the manager has loaded it is replaced without a backup. -/
theorem edited_queue_lost : ¬∀ (es : List (Event Unit Unit)) (w : World Unit Unit),
    Run (Step Settings.plainHost plainTools plainNames documented zeroTag) (World.start none none [] []) es w →
    Kept Settings.plainHost plainTools documented w := by
  intro h
  let edited : World Unit Unit :=
    { plainConstructed none with
      queue := { (plainConstructed none).queue with content := some (.external [255]) } }
  have hrun : Run (Step Settings.plainHost plainTools plainNames documented zeroTag)
      (World.start none none [] [])
      [.construct () plainVisit, .editQueue (some [255]), .queue () plainVisit (.op .reset)]
      (plainReset edited false) :=
    ((Run.single (.construct () plainVisit rfl)).snoc (.editQueue (some [255]))).snoc
      (.queue () plainVisit (.op .reset) rfl)
  have hinvalid : ¬ValidQueue Settings.plainHost documented (.external [255]) := by
    rintro ⟨data, items, hcontent, _⟩
    cases hcontent
  obtain ⟨name, hname⟩ := (h _ _ hrun).2 (.external [255], []) (List.mem_cons_self ..) hinvalid
  cases hname

end MegaBasterd.Preservation
