import BlockCoding.Main
import BlockCoding.Proofs.Grid.Reading
import BlockCoding.Proofs.Run.Conservation
import BlockCoding.Proofs.Run.LookAhead
import BlockCoding.Proofs.Run.Safety
import BlockCoding.Proofs.Run.Solvability
import BlockCoding.Proofs.Run.Telling
import BlockCoding.Proofs.Session.Ledger
import BlockCoding.Proofs.Session.Rerun
import BlockCoding.Proofs.Stage.Coloring
import BlockCoding.Run.Replay
import BlockCoding.Session.History
import BlockCoding.Store.Blocks
import BlockCoding.Store.Run
import BlockCoding.Store.Stage
import BlockCoding.Proofs.Run.Walk
import BlockCoding.Proofs.Run.Reasons
import BlockCoding.Proofs.Run.Energy
import BlockCoding.Proofs.Run.Appending
import BlockCoding.Proofs.Run.Leniency
import BlockCoding.Proofs.Session.Raising
import BlockCoding.Proofs.Session.Launch
import BlockCoding.Proofs.Session.Announcement
import BlockCoding.Proofs.Session.Display
import BlockCoding.Proofs.Session.Palette
import BlockCoding.Proofs.Grid.Chains
import BlockCoding.Proofs.Stage.Selection
import BlockCoding.Proofs.Stage.Spacing
import BlockCoding.Proofs.Random
import BlockCoding.Proofs.Level.Mining
import BlockCoding.Proofs.Stage.Logbook
import BlockCoding.Proofs.Stage.Harvest
import BlockCoding.Proofs.Session.Configuration
import BlockCoding.Proofs.Stage.Stalling
import BlockCoding.Proofs.Stage.Ripening
import BlockCoding.Proofs.Pacer.Elapsed
import BlockCoding.Proofs.Session.Bounding
import BlockCoding.Proofs.Program.Identity
import BlockCoding.Proofs.Session.Draining
import BlockCoding.Proofs.Store.Forms
import BlockCoding.Proofs.Store.Settings
import BlockCoding.Proofs.Run.Seeking
import BlockCoding.Proofs.Grid.RowMajor
