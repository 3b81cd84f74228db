import Goban.Arena
import Goban.Arena.Config
import Goban.Arena.Notice
import Goban.Arena.Options
import Goban.Arena.Run
import Goban.Batch.Device
import Goban.Batch.Hub
import Goban.Batch.Metrics
import Goban.Batch.Schedule
import Goban.Batch.Stats
import Goban.Board
import Goban.Board.Area
import Goban.Board.Life
import Goban.Call
import Goban.Color
import Goban.CommandLine
import Goban.Fault
import Goban.Files
import Goban.Game
import Goban.Game.Record
import Goban.Inquiry
import Goban.Json
import Goban.Json.Reader
import Goban.Main
import Goban.Match
import Goban.Model
import Goban.Model.Features
import Goban.Model.Softmax
import Goban.Move
import Goban.Move.Notation
import Goban.Path
import Goban.Point
import Goban.PointSet
import Goban.Position
import Goban.Position.Diagram
import Goban.Program
import Goban.Program.Failure
import Goban.Program.Output
import Goban.Proofs.Batch.Answers
import Goban.Proofs.Batch.Census
import Goban.Proofs.Batch.Course
import Goban.Proofs.Batch.Games
import Goban.Proofs.Batch.Routing
import Goban.Proofs.Batch.Tickets
import Goban.Search.Copy
import Goban.Search.Expansion
import Goban.Search.Noise
import Goban.Search.Options
import Goban.Search.Player
import Goban.Search.Selection
import Goban.Search.Tree
import Goban.Seed
import Goban.Single
import Goban.Single.Decimal
import Goban.Single.Reader
import Goban.Single.Rounding
import Goban.Table.Rows
import Goban.Table.Spec
import Goban.Text.Blank
import Goban.Text.Column
import Goban.Text.Digits
import Goban.Text.Split
import Goban.Text.Upper
import Goban.Wins
import Goban.Proofs.Batch.Moves
import Goban.Proofs.Batch.Bookkeeping
import Goban.Proofs.Batch.Sleep
import Goban.Proofs.Batch.Delivery
import Goban.Proofs.Rules.Chains
import Goban.Proofs.Rules.Life
import Goban.Proofs.Rules.Capture
import Goban.Proofs.Rules.Ko
import Goban.Proofs.Rules.Quiet
import Goban.Proofs.Rules.Settled
import Goban.Proofs.Rules.Legal
import Goban.Proofs.Search.Copies
import Goban.Proofs.Search.Growth
import Goban.Proofs.Search.Leaves
import Goban.Proofs.Search.Inquiries
import Goban.Proofs.Search.Calls
import Goban.Proofs.Search.Steady
import Goban.Proofs.Search.Transplant
import Goban.Proofs.Single.Comparison
import Goban.Proofs.Single.Decimals
import Goban.Proofs.Match.Alone
import Goban.Proofs.Match.Names
import Goban.Proofs.Match.Together
import Goban.Proofs.Batch.Frames
import Goban.Proofs.Batch.Handling
import Goban.Proofs.Batch.Receipts
import Goban.Proofs.Batch.Rounds
import Goban.Proofs.Batch.Overlap
import Goban.Proofs.Arena.Seats
import Goban.Proofs.Arena.Tasks
import Goban.Proofs.Arena.Tracks
import Goban.Proofs.Arena.Start
import Goban.Proofs.Arena.Credits
import Goban.Proofs.Arena.Agreement
import Goban.Proofs.Rules.Attempts
import Goban.Proofs.Search.Visits
import Goban.Proofs.Search.Favourites
import Goban.Proofs.Search.Lines
import Goban.Proofs.Search.Accounts
import Goban.Proofs.Search.Commits
import Goban.Proofs.Search.Readouts
import Goban.Proofs.Rules.Components
import Goban.Proofs.Rules.Survey
import Goban.Proofs.Rules.Area
import Goban.Proofs.Rules.Owners
import Goban.Proofs.Rules.Benson
import Goban.Proofs.Game.Reading
import Goban.Proofs.Batch.Chronicle
import Goban.Proofs.Batch.Books
import Goban.Proofs.Batch.Balance
import Goban.Proofs.Match.Inferences
import Goban.Proofs.Arena.Inferences
import Goban.Proofs.Game.Refusals
import Goban.Proofs.Match.Races
import Goban.Proofs.Model.Planes
import Goban.Proofs.Search.Outcomes
import Goban.Proofs.Arena.Seeds
import Goban.Proofs.Table.Entries
import Goban.Proofs.Table.Paths
import Goban.Proofs.Search.Odds
import Goban.Proofs.Search.Noise
import Goban.Proofs.Json.RoundTrip
import Goban.Proofs.Text.Parts
import Goban.Proofs.Files.Places
import Goban.Proofs.Text.Ends
import Goban.Proofs.Text.Numerals
import Goban.Proofs.Text.Cases
import Goban.Proofs.Table.Fields
import Goban.Proofs.Move.Vertices
import Goban.Proofs.Rules.Groups
import Goban.Proofs.Batch.Loads
import Goban.Proofs.Batch.Keys
