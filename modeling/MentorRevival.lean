import MentorRevival.Lib.Transition
import MentorRevival.Lib.Rest
import MentorRevival.Lib.Replay
import MentorRevival.Lib.History
import MentorRevival.Lib.CircularWindow
import MentorRevival.Lib.DropQueue
import MentorRevival.Lib.Mailbox
import MentorRevival.Lib.Blocks
import MentorRevival.Lib.Checked
import MentorRevival.Lib.SignMagnitude
import MentorRevival.Lib.Saturation
import MentorRevival.Ring.Circ
import MentorRevival.Ring.Bytes
import MentorRevival.Ring.Race
import MentorRevival.Ring.Preempted
import MentorRevival.Motor.Board
import MentorRevival.Motor.Motor
import MentorRevival.Motor.Pads
import MentorRevival.Events.Packet
import MentorRevival.Events.Serial
import MentorRevival.Events.Framing
import MentorRevival.Events.Handlers
import MentorRevival.Events.Outputs
import MentorRevival.Events.Duty
import MentorRevival.Events.System
import MentorRevival.Events.Storage
import MentorRevival.Events.Dispatch
import MentorRevival.Events.Progress
import MentorRevival.Events.Latency
import MentorRevival.Events.Halt
import MentorRevival.Events.Wakeups
import MentorRevival.Events.Replies
import MentorRevival.Events.Overload
import MentorRevival.Events.Safety
import MentorRevival.Events.Link
import MentorRevival.Events.Preempted
import MentorRevival.Joystick.Adc
import MentorRevival.Joystick.Joystick
import MentorRevival.Pid.Pid
import MentorRevival.Pid.Recurrence
import MentorRevival.Pid.Accumulator
import MentorRevival.Pid.Init
import MentorRevival.Pid.Record
